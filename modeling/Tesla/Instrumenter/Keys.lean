/-
# `Tesla.Instrumenter.Keys` — which slot holds which variable

A function event places its variables by their index; an assignment to a field places the
structure in slot 0 and the new value in slot 1, whatever their indices.  An event agrees
with its key when

    bit i of the mask is set     just when the event names the variable of index i
    slot i                       holds what that variable is when the event happens

and this is so exactly for the events that are `Placed`.
-/
import Tesla.Instrumenter.Translation
import Tesla.Lib.Ensures

namespace Tesla.Instrumenter

open Automata Lib Tesla.Runtime

/-! ## What a pattern stands for -/

mutual

/-- The type of what `p` stands for at a parameter of type `ty`. -/
def patternType (ty : Ty) : Argument → Option Ty
  | .mk .indirect _ _ _ _ _ indirection _ =>
    match ty with
    | .ptr elem => indirectionType elem indirection
    | _ => none
  | .mk .constant .. | .mk .any .. | .mk .variable .. | .mk .field .. => some ty

def indirectionType (ty : Ty) : Option Argument → Option Ty
  | none => some ty
  | some p => patternType ty p

end

mutual

/-- What `p` stands for when the parameter has the value `v`. -/
def patternValue (m : Memory) (v : Value) : Argument → Value
  | .mk .indirect _ _ _ _ _ indirection _ =>
    match v with
    | .ptr elem address => indirectionValue m (m.read address elem) indirection
    | v => v
  | .mk .constant .. | .mk .any .. | .mk .variable .. | .mk .field .. => v

def indirectionValue (m : Memory) (v : Value) : Option Argument → Value
  | none => v
  | some p => patternValue m v p

end

theorem Value.eq_ptr {x : Value} {elem : Ty} (h : x.ty = .ptr elem) :
    ∃ address, x = .ptr elem address := by
  cases x with
  | int width bits => cases h
  | ptr elem' address => cases h; exact ⟨address, rfl⟩
  | other => cases h

mutual

/-- The code for a value is typed, and loads what the pattern stands for. -/
theorem getArgumentValue_spec : ∀ (p : Argument) {v w : Operand × Ty},
    getArgumentValue v p = .ok w → patternType v.2 p = some w.2 ∧
      ∀ fr : Frame, (v.1.eval fr).ty = v.2 → w.1.eval fr = patternValue fr.memory (v.1.eval fr) p
  | .mk .indirect _ _ _ _ _ indirection _, v, w, h => by
    obtain ⟨o, ty⟩ := v
    cases ty with
    | int width => cases h
    | other => cases h
    | ptr elem =>
      obtain ⟨htype, hvalue⟩ := getIndirection_spec indirection h
      refine ⟨htype, ?_⟩
      intro fr hty
      obtain ⟨address, heq⟩ := Value.eq_ptr hty
      have heval : (Operand.load o).eval fr = fr.memory.read address elem := by
        rw [Operand.eval, heq]
      rw [hvalue fr (by rw [heval, fr.memory.typed]), heq, heval]
      rfl
  | .mk .constant .., _, _, h => by cases h; exact ⟨rfl, fun _ _ => rfl⟩
  | .mk .any .., _, _, h => by cases h; exact ⟨rfl, fun _ _ => rfl⟩
  | .mk .variable .., _, _, h => by cases h; exact ⟨rfl, fun _ _ => rfl⟩
  | .mk .field .., _, _, h => by cases h; exact ⟨rfl, fun _ _ => rfl⟩

theorem getIndirection_spec : ∀ (p : Option Argument) {v w : Operand × Ty},
    getIndirection v p = .ok w → indirectionType v.2 p = some w.2 ∧
      ∀ fr : Frame, (v.1.eval fr).ty = v.2 →
        w.1.eval fr = indirectionValue fr.memory (v.1.eval fr) p
  | none, _, _, h => by cases h; exact ⟨rfl, fun _ _ => rfl⟩
  | some p, _, _, h => getArgumentValue_spec p h

end

mutual

theorem getArgumentValue_of_type : ∀ (p : Argument) {v : Operand × Ty} {ty : Ty},
    patternType v.2 p = some ty → ∃ o, getArgumentValue v p = .ok (o, ty)
  | .mk .indirect _ _ _ _ _ indirection _, v, ty, h => by
    obtain ⟨o, vty⟩ := v
    cases vty with
    | int width => cases h
    | other => cases h
    | ptr elem => exact getIndirection_of_type indirection h
  | .mk .constant .., _, _, h => by cases h; exact ⟨_, rfl⟩
  | .mk .any .., _, _, h => by cases h; exact ⟨_, rfl⟩
  | .mk .variable .., _, _, h => by cases h; exact ⟨_, rfl⟩
  | .mk .field .., _, _, h => by cases h; exact ⟨_, rfl⟩

theorem getIndirection_of_type : ∀ (p : Option Argument) {v : Operand × Ty} {ty : Ty},
    indirectionType v.2 p = some ty → ∃ o, getIndirection v p = .ok (o, ty)
  | none, _, _, h => by cases h; exact ⟨_, rfl⟩
  | some p, _, _, h => getArgumentValue_of_type p h

end

/-! ## Keys -/

section Keys

variable {i : Nat} {ty : Ty} {tys : List Ty} {p : Argument} {ps : List Argument}
  {args args' : KeyArgs} {slot : Fin keySize} {stores : List (Option (Operand × Ty))}
  {k k' : KeyCode} {o : Operand}

/-- What is stored from slot `i` on. -/
structure Stored (i : Nat) (stores : List (Option (Operand × Ty))) (k k' : KeyCode) : Prop where
  slots : ∀ slot : Fin keySize, k'.slots slot =
    if i ≤ slot then ((stores[slot - i]?).join.map Prod.fst).or (k.slots slot) else k.slots slot
  mask : ∀ n, k'.mask.getLsbD n =
    (k.mask.getLsbD n || decide (i ≤ n) && (stores[n - i]?).join.isSome)
  freeMask : k'.freeMask = k.freeMask

/-- What is stored from slot `i` on is stored at slot `i` or from the next slot on. -/
theorem forall_stored_cons {P : Nat → Operand × Ty → Prop} {store : Option (Operand × Ty)} :
    (∀ j v, (store :: stores)[j]? = some (some v) → P (i + j) v) ↔
      (∀ v ∈ store, P i v) ∧ ∀ j v, stores[j]? = some (some v) → P (i + 1 + j) v := by
  constructor
  · intro h
    refine ⟨fun v hv => h 0 v (congrArg some hv), fun j v hj => ?_⟩
    have := h (j + 1) v hj
    rwa [← Nat.add_assoc, Nat.add_right_comm] at this
  · rintro ⟨hstore, hstores⟩ (_ | j) v hj
    · exact hstore v (Option.some.inj hj)
    · have := hstores j v hj
      rwa [Nat.add_right_comm] at this

theorem storeKeys_ok_iff : (∃ k', storeKeys i stores k = .ok k') ↔
    ∀ j v, stores[j]? = some (some v) → i + j < keySize ∧ castable v.2 = true := by
  induction stores generalizing i k with
  | nil => simp [storeKeys]
  | cons store stores ih =>
    refine Iff.trans ?_
      (forall_stored_cons (P := fun n v => n < keySize ∧ castable v.2 = true)).symm
    cases store with
    | none =>
      rw [storeKeys, ih]
      exact (and_iff_right fun v hv => by cases hv).symm
    | some v =>
      obtain ⟨o, ty⟩ := v
      rw [storeKeys]
      split
      · next hslot =>
        split
        · next hty =>
          rw [ih]
          refine (and_iff_right ?_).symm
          rintro _ ⟨⟩
          exact ⟨hslot, hty⟩
        · next hty =>
          refine iff_of_false (fun ⟨_, h⟩ => by cases h) ?_
          rintro ⟨h, -⟩
          exact hty (h _ rfl).2
      · next hslot =>
        refine iff_of_false (fun ⟨_, h⟩ => by cases h) ?_
        rintro ⟨h, -⟩
        exact hslot (h _ rfl).1

theorem KeyCode.store_slots (k : KeyCode) (slot : Fin keySize) (o : Operand) (slot' : Fin keySize) :
    (k.store slot o).slots slot' = if (slot' : Nat) = slot then some o else k.slots slot' := by
  rw [store]
  split
  · next heq =>
    obtain rfl := Fin.ext heq
    exact Function.update_self ..
  · next hne => exact Function.update_of_ne (fun h => hne (congrArg Fin.val h)) ..

theorem KeyCode.store_mask (k : KeyCode) (slot : Fin keySize) (o : Operand) (n : Nat) :
    (k.store slot o).mask.getLsbD n = (k.mask.getLsbD n || decide (n = slot)) := by
  have hbit : (1#32 <<< slot.val).getLsbD n = decide (n = slot) := by
    have hlt : slot.val < 32 := slot.isLt.trans (by decide)
    have htwo := BitVec.getLsbD_twoPow (w := 32) slot n
    rw [decide_eq_true hlt, Bool.true_and] at htwo
    rw [decide_eq_decide.mpr eq_comm]
    exact htwo
  rw [store, BitVec.getLsbD_or, hbit]

theorem getElem?_cons_sub {α : Type*} {x : α} {xs : List α} {n : Nat} (h : i ≤ n) :
    (x :: xs)[n - i]? = if n = i then some x else xs[n - (i + 1)]? := by
  split
  · next heq =>
    rw [heq, Nat.sub_self]
    rfl
  · next hne =>
    have hsub : n - i = n - (i + 1) + 1 := by omega
    rw [hsub, List.getElem?_cons_succ]

theorem storeKeys_spec (h : storeKeys i stores k = .ok k') : Stored i stores k k' := by
  induction stores generalizing i k with
  | nil =>
    cases h
    exact ⟨fun slot => by simp, fun n => by simp, rfl⟩
  | cons store stores ih =>
    cases store with
    | none =>
      obtain ⟨hslots, hmask, hfree⟩ := ih h
      refine ⟨?_, ?_, hfree⟩
      · intro slot
        rw [hslots]
        by_cases hle : i ≤ slot
        · rw [if_pos hle, getElem?_cons_sub hle]
          grind
        · grind
      · intro n
        rw [hmask]
        by_cases hle : i ≤ n
        · rw [getElem?_cons_sub hle]
          grind
        · grind
    | some v =>
      obtain ⟨o, ty⟩ := v
      rw [storeKeys] at h
      split at h
      · next hlt =>
        split at h
        · obtain ⟨hslots, hmask, hfree⟩ := ih h
          refine ⟨?_, ?_, hfree⟩
          · intro slot
            rw [hslots]
            by_cases hle : i ≤ slot
            · rw [if_pos hle, getElem?_cons_sub hle]
              by_cases heq : (slot : Nat) = i
              · obtain rfl : slot = ⟨i, hlt⟩ := Fin.ext heq
                rw [if_pos rfl, if_neg (by omega), KeyCode.store_slots, if_pos rfl]
                rfl
              · rw [if_neg heq, if_pos (by omega), KeyCode.store_slots, if_neg heq]
            · rw [if_neg hle, if_neg (by omega), KeyCode.store_slots,
                if_neg fun heq => hle heq.ge]
          · intro n
            rw [hmask, KeyCode.store_mask]
            by_cases hle : i ≤ n
            · rw [getElem?_cons_sub hle]
              grind
            · grind
        · cases h
      · cases h

theorem constructKey_ok_iff {freeMask : Mask} : (∃ k, constructKey stores freeMask = .ok k) ↔
    ∀ j v, stores[j]? = some (some v) → j < keySize ∧ castable v.2 = true := by
  rw [constructKey, storeKeys_ok_iff]
  simp only [Nat.zero_add]

theorem constructKey_spec {freeMask : Mask} (h : constructKey stores freeMask = .ok k) :
    (∀ slot : Fin keySize, k.slots slot = (stores[(slot : Nat)]?).join.map Prod.fst) ∧
      (∀ n, k.mask.getLsbD n = (stores[n]?).join.isSome) ∧ k.freeMask = freeMask := by
  obtain ⟨hslots, hmask, hfree⟩ := storeKeys_spec h
  refine ⟨?_, ?_, hfree⟩
  · intro slot
    rw [hslots, if_pos (Nat.zero_le _), Nat.sub_zero, Option.or_none]
  · intro n
    have hnone : (0 : Mask).getLsbD n = false := BitVec.getLsbD_zero
    rw [hmask, Nat.sub_zero, hnone, Bool.false_or, decide_eq_true (Nat.zero_le n), Bool.true_and]

/-! ## Patterns -/

theorem keyIndex_eq_ok {n : Int} : keyIndex n = .ok slot ↔ n = slot := by
  rw [keyIndex]
  split
  · next h =>
    rw [Except.ok.injEq, Fin.ext_iff]
    show n.toNat = slot ↔ n = slot
    have := h.2
    omega
  · next h =>
    refine iff_of_false nofun ?_
    rintro rfl
    exact h ⟨by rw [Int.toNat_natCast]; exact slot.isLt, Int.natCast_nonneg _⟩

theorem placePattern_eq_ok : placePattern true i ty p args = .ok args' ↔
    p.index = none ∧ args' = args ∨ ∃ (slot : Fin keySize) (v : Operand × Ty),
      p.index = some (slot : Int) ∧ args slot = none ∧ getArgumentValue (.param i, ty) p = .ok v ∧
        args' = Function.update args slot (some v) := by
  rw [placePattern]
  cases p.index with
  | none => simp [eq_comm]
  | some n =>
    simp only [bind_eq_ok, keyIndex_eq_ok, Option.some.injEq, reduceCtorEq, false_and, false_or]
    constructor
    · rintro ⟨slot, rfl, h⟩
      split at h
      · cases h
      · next hfree =>
        obtain ⟨v, hv, h⟩ := bind_eq_ok.mp h
        cases h
        exact ⟨slot, v, rfl, Option.not_isSome_iff_eq_none.mp hfree, hv, rfl⟩
    · rintro ⟨slot, v, rfl, hfree, hv, rfl⟩
      refine ⟨slot, rfl, ?_⟩
      rw [hfree, if_neg (by simp)]
      exact bind_eq_ok.mpr ⟨v, hv, rfl⟩

/-- Can code be written for `p` at a parameter of type `ty`? -/
structure Readable (p : Argument) (ty : Ty) : Prop where
  constant : p.type = .constant → ∃ width, ty = .int width
  indexed : p.index.isSome → ∃ ty', patternType ty p = some ty'

theorem matchPattern_eq_ok {ts : List Test} : matchPattern i ty p = .ok ts ↔
    (p.type = .constant → ∃ width, ty = .int width) ∧
      ts = if p.type = .constant then [.constant i p.constantMatch p.value] else [] := by
  unfold matchPattern
  by_cases htype : p.type = .constant
  · rw [if_pos htype, if_pos htype]
    cases ty with
    | int width => simp [eq_comm]
    | ptr elem => simp [htype]
    | other => simp [htype]
  · rw [if_neg htype, if_neg htype]
    simp [htype, eq_comm]

/-- The slots that the patterns from parameter `i` on take. -/
structure Laid (i : Nat) (tys : List Ty) (ps : List Argument) (args args' : KeyArgs) : Prop where
  slots : ∀ slot v, args' slot = some v ↔ args slot = some v ∨
    ∃ j p ty, ps[j]? = some p ∧ tys[j]? = some ty ∧ p.index = some (slot : Int) ∧
      getArgumentValue (.param (i + j), ty) p = .ok v
  free : ∀ p ∈ ps, ∀ n, p.index = some n → ∃ slot : Fin keySize, n = slot ∧ args slot = none
  distinct : (ps.filterMap Argument.index).Nodup

theorem Laid.nil : Laid i tys [] args args :=
  ⟨fun slot v => by simp, nofun, List.nodup_nil⟩

theorem getElem?_cons_exists {α : Type*} {x : α} {xs : List α} {P : Nat → α → Prop} :
    (∃ j y, (x :: xs)[j]? = some y ∧ P j y) ↔ P 0 x ∨ ∃ j y, xs[j]? = some y ∧ P (j + 1) y := by
  constructor
  · rintro ⟨_ | j, y, hy, h⟩
    · cases hy
      exact .inl h
    · exact .inr ⟨j, y, hy, h⟩
  · rintro (h | ⟨j, y, hy, h⟩)
    · exact ⟨0, x, rfl, h⟩
    · exact ⟨j + 1, y, hy, h⟩

/-- A pattern without an index takes no slot. -/
theorem Laid.skip (hp : p.index = none) (h : Laid (i + 1) tys ps args args') :
    Laid i (ty :: tys) (p :: ps) args args' := by
  refine ⟨?_, ?_, ?_⟩
  · intro slot v
    rw [h.slots]
    refine or_congr_right ?_
    constructor
    · rintro ⟨j, q, qty, hq, hqty, hslot, hv⟩
      refine ⟨j + 1, q, qty, hq, hqty, hslot, ?_⟩
      rwa [← Nat.add_assoc, Nat.add_right_comm]
    · rintro ⟨_ | j, q, qty, hq, hqty, hslot, hv⟩
      · cases hq
        rw [hp] at hslot
        cases hslot
      · refine ⟨j, q, qty, hq, hqty, hslot, ?_⟩
        rwa [Nat.add_right_comm, Nat.add_assoc]
  · rw [List.forall_mem_cons]
    refine ⟨fun n hn => ?_, h.free⟩
    rw [hp] at hn
    cases hn
  · rw [List.filterMap_cons_none hp]
    exact h.distinct

theorem Laid.take {v : Operand × Ty} (hp : p.index = some (slot : Int)) (hfree : args slot = none)
    (hv : getArgumentValue (.param i, ty) p = .ok v)
    (h : Laid (i + 1) tys ps (Function.update args slot (some v)) args') :
    Laid i (ty :: tys) (p :: ps) args args' := by
  have hother : ∀ q ∈ ps, q.index ≠ some (slot : Int) := by
    intro q hq heq
    obtain ⟨slot', hslot, hnone⟩ := h.free q hq _ heq
    obtain rfl : slot = slot' := Fin.ext (Int.ofNat_inj.mp hslot)
    rw [Function.update_self] at hnone
    cases hnone
  refine ⟨?_, ?_, ?_⟩
  · intro slot' v'
    rw [h.slots]
    constructor
    · rintro (hold | ⟨j, q, qty, hq, hqty, hslot, hv'⟩)
      · by_cases heq : slot' = slot
        · subst heq
          rw [Function.update_self] at hold
          obtain rfl := Option.some.inj hold
          exact .inr ⟨0, p, ty, rfl, rfl, hp, hv⟩
        · rw [Function.update_of_ne heq] at hold
          exact .inl hold
      · refine .inr ⟨j + 1, q, qty, hq, hqty, hslot, ?_⟩
        rwa [← Nat.add_assoc, Nat.add_right_comm]
    · rintro (hold | ⟨_ | j, q, qty, hq, hqty, hslot, hv'⟩)
      · refine .inl ?_
        rw [Function.update_of_ne, hold]
        rintro rfl
        rw [hfree] at hold
        cases hold
      · cases hq
        cases hqty
        rw [hp] at hslot
        obtain rfl : slot = slot' := Fin.ext (Int.ofNat_inj.mp (Option.some.inj hslot))
        rw [Nat.add_zero, hv] at hv'
        cases hv'
        exact .inl (Function.update_self ..)
      · refine .inr ⟨j, q, qty, hq, hqty, hslot, ?_⟩
        rwa [Nat.add_right_comm, Nat.add_assoc]
  · rw [List.forall_mem_cons]
    refine ⟨fun n hn => ?_, fun q hq n hn => ?_⟩
    · rw [hp] at hn
      exact ⟨slot, (Option.some.inj hn).symm, hfree⟩
    · obtain ⟨slot', rfl, hnone⟩ := h.free q hq n hn
      refine ⟨slot', rfl, ?_⟩
      rwa [Function.update_of_ne] at hnone
      rintro rfl
      exact hother q hq hn
  · rw [List.filterMap_cons_some hp, List.nodup_cons]
    refine ⟨?_, h.distinct⟩
    intro hmem
    obtain ⟨q, hq, heq⟩ := List.mem_filterMap.mp hmem
    exact hother q hq heq

/-- The comparisons for the constants among the patterns from parameter `i` on. -/
def IsTest (i : Nat) (ps : List Argument) (t : Test) : Prop :=
  ∃ j p, ps[j]? = some p ∧ p.type = .constant ∧ t = .constant (i + j) p.constantMatch p.value

theorem isTest_cons {t : Test} : IsTest i (p :: ps) t ↔
    t ∈ (if p.type = .constant then [Test.constant i p.constantMatch p.value] else []) ∨
      IsTest (i + 1) ps t := by
  rw [IsTest, getElem?_cons_exists, IsTest]
  refine or_congr ?_ ?_
  · split
    · next htype => simp [htype]
    · next htype => simp [htype]
  · simp only [Nat.add_assoc, Nat.add_comm 1]

theorem placePatterns_spec {tests tests' : List Test} (hlen : ps.length = tys.length)
    (h : placePatterns true i tys ps (tests, args) = .ok (tests', args')) :
    Laid i tys ps args args' ∧ (∀ t, t ∈ tests' ↔ t ∈ tests ∨ IsTest i ps t) ∧
      ∀ x ∈ ps.zip tys, Readable x.1 x.2 := by
  induction ps generalizing i tys tests args with
  | nil =>
    obtain rfl := List.length_eq_zero_iff.mp hlen.symm
    cases h
    exact ⟨.nil, fun t => by simp [IsTest], nofun⟩
  | cons p ps ih =>
    obtain ⟨ty, tys, rfl⟩ := List.exists_cons_of_length_eq_add_one hlen.symm
    rw [placePatterns] at h
    obtain ⟨ts, hts, h⟩ := bind_eq_ok.mp h
    obtain ⟨args₁, hargs, h⟩ := bind_eq_ok.mp h
    obtain ⟨hconstant, rfl⟩ := matchPattern_eq_ok.mp hts
    obtain ⟨hlaid, htests, hreadable⟩ := ih (Nat.succ.inj hlen) h
    have htests' : ∀ t, t ∈ tests' ↔ t ∈ tests ∨ IsTest i (p :: ps) t := by
      intro t
      rw [htests, List.mem_append, isTest_cons, or_assoc]
    rw [List.zip_cons_cons, List.forall_mem_cons]
    obtain ⟨hp, rfl⟩ | ⟨slot, v, hp, hfree, hv, rfl⟩ := placePattern_eq_ok.mp hargs
    · refine ⟨hlaid.skip hp, htests', ⟨hconstant, fun hsome => ?_⟩, hreadable⟩
      rw [hp] at hsome
      cases hsome
    · refine ⟨hlaid.take hp hfree hv, htests', ⟨hconstant, fun _ => ?_⟩, hreadable⟩
      exact ⟨v.2, (getArgumentValue_spec p hv).1⟩

theorem placePatterns_ok (i : Nat) (tests : List Test) (args : KeyArgs) (hlen : ps.length = tys.length)
    (hreadable : ∀ x ∈ ps.zip tys, Readable x.1 x.2)
    (hfree : ∀ p ∈ ps, ∀ n, p.index = some n → ∃ slot : Fin keySize, n = slot ∧ args slot = none)
    (hdistinct : (ps.filterMap Argument.index).Nodup) :
    ∃ r, placePatterns true i tys ps (tests, args) = .ok r := by
  induction ps generalizing i tys tests args with
  | nil => exact ⟨(tests, args), by rw [placePatterns]; simp⟩
  | cons p ps ih =>
    obtain ⟨ty, tys, rfl⟩ := List.exists_cons_of_length_eq_add_one hlen.symm
    rw [List.zip_cons_cons, List.forall_mem_cons] at hreadable
    rw [List.forall_mem_cons] at hfree
    obtain ⟨⟨hconstant, hindexed⟩, hreadable⟩ := hreadable
    rw [placePatterns]
    simp only [bind_eq_ok]
    suffices hrest : ∃ args', placePattern true i ty p args = .ok args' ∧ ∃ r,
        placePatterns true (i + 1) tys ps (tests ++
          if p.type = .constant then [.constant i p.constantMatch p.value] else [], args') = .ok r by
      obtain ⟨args', hplace, r, hr⟩ := hrest
      exact ⟨r, _, matchPattern_eq_ok.mpr ⟨hconstant, rfl⟩, args', hplace, hr⟩
    cases hp : p.index with
    | none =>
      rw [List.filterMap_cons_none hp] at hdistinct
      exact ⟨args, placePattern_eq_ok.mpr (.inl ⟨hp, rfl⟩),
        ih _ _ _ (Nat.succ.inj hlen) hreadable hfree.2 hdistinct⟩
    | some n =>
      obtain ⟨slot, rfl, hnone⟩ := hfree.1 n hp
      obtain ⟨ty', hty⟩ := hindexed (by rw [hp]; rfl)
      obtain ⟨o, ho⟩ := getArgumentValue_of_type p (v := (.param i, ty)) hty
      rw [List.filterMap_cons_some hp, List.nodup_cons] at hdistinct
      refine ⟨_, placePattern_eq_ok.mpr (.inr ⟨slot, _, hp, hnone, ho, rfl⟩),
        ih _ _ _ (Nat.succ.inj hlen) hreadable ?_ hdistinct.2⟩
      intro q hq n hn
      obtain ⟨slot', rfl, hnone'⟩ := hfree.2 q hq n hn
      refine ⟨slot', rfl, ?_⟩
      rw [Function.update_of_ne, hnone']
      rintro rfl
      exact hdistinct.1 (List.mem_filterMap.mpr ⟨q, hq, hn⟩)

/-- Can a function with parameters `tys` be instrumented with these patterns? -/
structure Translatable (tys : List Ty) (ps : List Argument) : Prop where
  length : ps.length = tys.length
  constant : ∀ x ∈ ps.zip tys, x.1.type = .constant → ∃ width, x.2 = .int width
  indexed : ∀ x ∈ ps.zip tys, x.1.index.isSome →
    ∃ ty', patternType x.2 x.1 = some ty' ∧ castable ty' = true
  inKey : ∀ p ∈ ps, ∀ n, p.index = some n → ∃ slot : Fin keySize, n = slot
  distinct : (ps.filterMap Argument.index).Nodup

/-- The code for patterns. -/
structure Translates (tys : List Ty) (ps : List Argument) (c : Code) : Prop where
  tests : ∀ t, t ∈ c.tests ↔ IsTest 0 ps t
  slots : ∀ slot o, c.key.slots slot = some o ↔ ∃ j p ty ty', ps[j]? = some p ∧
    tys[j]? = some ty ∧ p.index = some (slot : Int) ∧
      getArgumentValue (.param j, ty) p = .ok (o, ty')
  mask : ∀ n, c.key.mask.getLsbD n = true ↔ ∃ p ∈ ps, p.index = some (n : Int)

theorem mem_zip_of_getElem? {j : Nat} (hp : ps[j]? = some p) (hty : tys[j]? = some ty) :
    (p, ty) ∈ ps.zip tys :=
  List.mem_of_getElem? (List.getElem?_zip_eq_some.mpr ⟨hp, hty⟩)

theorem exists_type {j : Nat} (hlen : ps.length = tys.length) (hp : ps[j]? = some p) :
    ∃ ty, tys[j]? = some ty := by
  obtain ⟨hlt, _⟩ := List.getElem?_eq_some_iff.mp hp
  exact ⟨_, List.getElem?_eq_getElem (hlen ▸ hlt)⟩

theorem join_ofFn {n : Nat} {v : Operand × Ty} : ((List.ofFn args)[n]?).join = some v ↔
    ∃ slot : Fin keySize, (slot : Nat) = n ∧ args slot = some v := by
  rw [List.getElem?_ofFn]
  split
  · next hlt =>
    rw [Option.join_some]
    constructor
    · exact fun h => ⟨⟨n, hlt⟩, rfl, h⟩
    · rintro ⟨slot, rfl, h⟩
      exact h
  · next hlt =>
    refine iff_of_false nofun ?_
    rintro ⟨slot, rfl, _⟩
    exact hlt slot.isLt

section Placed
variable {freeMask : Mask} {key : KeyCode}
  (hlaid : Laid 0 tys ps (fun _ => none) args)
include hlaid

theorem Laid.slot_iff (slot : Fin keySize) (v : Operand × Ty) :
    args slot = some v ↔ ∃ j p ty, ps[j]? = some p ∧ tys[j]? = some ty ∧
      p.index = some (slot : Int) ∧ getArgumentValue (.param j, ty) p = .ok v := by
  rw [hlaid.slots]
  simp

variable (hreadable : ∀ x ∈ ps.zip tys, Readable x.1 x.2)
  (hkey : constructKey (List.ofFn args) freeMask = .ok key)
include hreadable hkey

/-- Every index has its slot, and the slot a value that fits a word. -/
theorem Laid.taken {j : Nat} {n : Int} (hp : ps[j]? = some p) (hty : tys[j]? = some ty)
    (hn : p.index = some n) : ∃ (slot : Fin keySize) (v : Operand × Ty), n = slot ∧
      args slot = some v ∧ patternType ty p = some v.2 ∧ castable v.2 = true := by
  obtain ⟨slot, rfl, _⟩ := hlaid.free p (List.mem_of_getElem? hp) n hn
  obtain ⟨ty', htype⟩ := (hreadable _ (mem_zip_of_getElem? hp hty)).indexed (by rw [hn]; rfl)
  obtain ⟨o, ho⟩ := getArgumentValue_of_type p (v := (.param j, ty)) htype
  have hv : args slot = some (o, ty') :=
    (hlaid.slot_iff slot _).mpr ⟨j, p, ty, hp, hty, hn, ho⟩
  refine ⟨slot, (o, ty'), rfl, hv, htype, (constructKey_ok_iff.mp ⟨key, hkey⟩ slot _ ?_).2⟩
  exact Option.join_eq_some_iff.mp (join_ofFn.mpr ⟨slot, rfl, hv⟩)

theorem Laid.translatable (hlen : ps.length = tys.length) : Translatable tys ps := by
  refine ⟨hlen, fun x hx => (hreadable x hx).constant, ?_, ?_, hlaid.distinct⟩
  · intro x hx hsome
    obtain ⟨j, hj⟩ := List.mem_iff_getElem?.mp hx
    obtain ⟨hp, hty⟩ := List.getElem?_zip_eq_some.mp hj
    obtain ⟨n, hn⟩ := Option.isSome_iff_exists.mp hsome
    obtain ⟨_, v, _, _, htype, hcastable⟩ := hlaid.taken hreadable hkey hp hty hn
    exact ⟨v.2, htype, hcastable⟩
  · intro p hp n hn
    obtain ⟨slot, heq, _⟩ := hlaid.free p hp n hn
    exact ⟨slot, heq⟩

theorem Laid.translates {tests : List Test} (hlen : ps.length = tys.length)
    (htests : ∀ t, t ∈ tests ↔ IsTest 0 ps t) : Translates tys ps ⟨tests, key⟩ := by
  obtain ⟨hkeys, hmask, _⟩ := constructKey_spec hkey
  refine ⟨htests, ?_, ?_⟩
  · intro slot o
    rw [hkeys, Option.map_eq_some_iff]
    constructor
    · rintro ⟨v, hv, rfl⟩
      obtain ⟨slot', hslot, htaken⟩ := join_ofFn.mp hv
      obtain rfl := Fin.ext hslot
      obtain ⟨j, p, ty, hp, hty, hn, hval⟩ := (hlaid.slot_iff _ _).mp htaken
      exact ⟨j, p, ty, v.2, hp, hty, hn, hval⟩
    · rintro ⟨j, p, ty, ty', hp, hty, hn, hval⟩
      have hv : args slot = some (o, ty') :=
        (hlaid.slot_iff _ _).mpr ⟨j, p, ty, hp, hty, hn, hval⟩
      exact ⟨(o, ty'), join_ofFn.mpr ⟨slot, rfl, hv⟩, rfl⟩
  · intro n
    rw [hmask, Option.isSome_iff_exists]
    constructor
    · rintro ⟨v, hv⟩
      obtain ⟨slot, rfl, htaken⟩ := join_ofFn.mp hv
      obtain ⟨j, p, ty, hp, _, hn, _⟩ := (hlaid.slot_iff _ _).mp htaken
      exact ⟨p, List.mem_of_getElem? hp, hn⟩
    · rintro ⟨p, hp, hn⟩
      obtain ⟨j, hp⟩ := List.mem_iff_getElem?.mp hp
      obtain ⟨ty, hty⟩ := exists_type hlen hp
      obtain ⟨slot, v, heq, hv, _⟩ := hlaid.taken hreadable hkey hp hty hn
      exact ⟨v, join_ofFn.mpr ⟨slot, (Int.ofNat_inj.mp heq).symm, hv⟩⟩

end Placed

theorem addInstrumentation_spec {freeMask : Mask} {c : Code}
    (h : addInstrumentation tys ps true freeMask = .ok c) :
    Translatable tys ps ∧ Translates tys ps c := by
  rw [addInstrumentation] at h
  split at h
  · next hlen =>
    obtain ⟨⟨tests, args⟩, hplace, h⟩ := bind_eq_ok.mp h
    obtain ⟨key, hkey, h⟩ := bind_eq_ok.mp h
    cases h
    obtain ⟨hlaid, htests, hreadable⟩ := placePatterns_spec hlen hplace
    have htests : ∀ t, t ∈ tests ↔ IsTest 0 ps t := by
      intro t
      rw [htests]
      simp
    exact ⟨hlaid.translatable hreadable hkey hlen, hlaid.translates hreadable hkey hlen htests⟩
  · cases h

theorem addInstrumentation_ok (freeMask : Mask) (h : Translatable tys ps) :
    ∃ c, addInstrumentation tys ps true freeMask = .ok c := by
  rw [addInstrumentation, if_pos h.length]
  have hreadable : ∀ x ∈ ps.zip tys, Readable x.1 x.2 := by
    intro x hx
    refine ⟨h.constant x hx, fun hsome => ?_⟩
    obtain ⟨ty', htype, _⟩ := h.indexed x hx hsome
    exact ⟨ty', htype⟩
  have hfree : ∀ p ∈ ps, ∀ n, p.index = some n →
      ∃ slot : Fin keySize, n = slot ∧ (none : Option (Operand × Ty)) = none := by
    intro p hp n hn
    obtain ⟨slot, heq⟩ := h.inKey p hp n hn
    exact ⟨slot, heq, rfl⟩
  obtain ⟨⟨tests, args⟩, hplace⟩ :=
    placePatterns_ok 0 [] (fun _ => none) h.length hreadable hfree h.distinct
  obtain ⟨hlaid, _⟩ := placePatterns_spec h.length hplace
  have hcast : ∀ j v, (List.ofFn args)[j]? = some (some v) → j < keySize ∧ castable v.2 = true := by
    intro j v hj
    obtain ⟨slot, rfl, hv⟩ := join_ofFn.mp (Option.join_eq_some_iff.mpr hj)
    refine ⟨slot.isLt, ?_⟩
    obtain hold | ⟨j, p, ty, hp, hty, hn, hval⟩ := (hlaid.slots slot v).mp hv
    · cases hold
    · obtain ⟨ty', htype, hcastable⟩ :=
        h.indexed _ (mem_zip_of_getElem? hp hty) (by rw [hn]; rfl)
      rw [(getArgumentValue_spec p hval).1] at htype
      rwa [Option.some.inj htype]
  obtain ⟨key, hkey⟩ := constructKey_ok_iff.mpr hcast
  exact ⟨⟨tests, key⟩, bind_eq_ok.mpr ⟨_, hplace, bind_eq_ok.mpr ⟨key, hkey, rfl⟩⟩⟩

end Keys

/-! ## Events at their places -/

/-- What is instrumented for an event: a function of type `target`, or the stores to a field of
type `ty`. -/
inductive Site where
  | function (ev : FunctionEvent) (target : FunctionType)
  | field (assign : FieldAssignment) (ty : Ty)

namespace Site

/-- The parameters of the instrumentation function. -/
def params : Site → List Ty
  | function ev target => instrParams (ev.direction.getD .entry) target
  | field _ ty => [.ptr .other, ty, .ptr ty]

def code : Site → Except Failure Code
  | function ev target => do addEvent (← createInstrFn ev target) ev
  | field assign ty => appendInstrumentation assign ty

/-- The arguments of the event, one for each of the first parameters. -/
def arguments : Site → List Argument
  | function ev _ => eventPatterns ev
  | field assign _ => [assign.field.base, assign.value]

/-- What the arguments are when the event happens: for an assignment, the structure and the
value that is stored. -/
def values (fr : Frame) : Site → List (Argument × Value)
  | function ev _ =>
    ((eventPatterns ev).zip fr.args).map fun x => (x.1, patternValue fr.memory x.2 x.1)
  | field assign _ => [assign.field.base, assign.value].zip fr.args

/-- The constants of the event match. -/
def Matched (fr : Frame) : Site → Prop
  | function ev _ => ∀ j p, (eventPatterns ev)[j]? = some p → p.type = .constant →
      (Test.constant j p.constantMatch p.value).holds fr = true
  | field assign _ => assign.value.type = .constant →
      (Test.assigned assign.operation assign.value.value).holds fr = true

end Site

/-- Is it a variable, and its index `i`? -/
def Names (p : Argument) (i : Nat) : Prop :=
  (p.type ≠ .constant ∧ p.type ≠ .any) ∧ p.index = some (i : Int)

/-- Whenever the constants of the event match, a key is passed, with a bit for just the
variables that the event names and their values in the slots. -/
def KeyAgrees (s : Site) : Prop :=
  ∃ c, s.code = .ok c ∧ ∀ fr : Frame, fr.Fits s.params → s.Matched fr → c.matched fr = true ∧
    (∀ i, (c.key.run fr).tkMask.getLsbD i = true ↔ ∃ p ∈ s.arguments, Names p i) ∧
    ∀ x ∈ s.values fr, ∀ i : Fin keySize, Names x.1 i → (c.key.run fr).tkKeys i = x.2.word

/-- A function event of C for which code can be written, with an index on variables only; an
assignment to a field of variable 0, of an integer constant or of variable 1. -/
def Placed : Site → Prop
  | .function ev target =>
    ev.kind.getD .cCall = .cCall ∧ ev.receiver = none ∧
      (ev.expectedReturnValue.isSome → ev.direction.getD .entry = .exit) ∧
      Translatable (Site.function ev target).params (eventPatterns ev) ∧
      ∀ p ∈ eventPatterns ev, p.index.isSome → p.type ≠ .constant ∧ p.type ≠ .any
  | .field assign ty =>
    Names assign.field.base 0 ∧
      (assign.value.type = .constant ∧ (∃ width, ty = .int width) ∨
        assign.value.type = .variable ∧ assign.value.index = some 1 ∧ castable ty = true)

section Function

variable {ev : FunctionEvent} {target : FunctionType} {c : Code} {fr : Frame}

theorem addEvent_eq_ok {params : List Ty} : addEvent params ev = .ok c ↔
    (ev.expectedReturnValue.isSome → ev.direction.getD .entry = .exit) ∧
      (ev.receiver.isSome → ev.kind.getD .cCall ≠ .cCall) ∧
      addInstrumentation params (eventPatterns ev) true 0 = .ok c := by
  rw [addEvent]
  split
  · next h => exact iff_of_false nofun fun hok => h.2 (hok.1 h.1)
  · next hexit =>
    split
    · next h => exact iff_of_false nofun fun hok => hok.2.1 h.1 h.2
    · next hkind =>
      rw [not_and, not_not] at hexit
      rw [not_and] at hkind
      exact ⟨fun h => ⟨hexit, hkind, h⟩, fun h => h.2.2⟩

theorem createInstrFn_eq_ok {params : List Ty} : createInstrFn ev target = .ok params ↔
    ev.kind.getD .cCall = .cCall ∧ params = (Site.function ev target).params := by
  rw [createInstrFn]
  cases ev.kind.getD .cCall with
  | cCall => simp [Site.params, eq_comm]
  | objCInstanceMessage | objCClassMessage | objCSuperMessage => simp

theorem function_code_eq_ok : (Site.function ev target).code = .ok c ↔
    ev.kind.getD .cCall = .cCall ∧ ev.receiver = none ∧
      (ev.expectedReturnValue.isSome → ev.direction.getD .entry = .exit) ∧
      addInstrumentation (Site.function ev target).params (eventPatterns ev) true 0 = .ok c := by
  rw [Site.code, bind_eq_ok]
  simp only [createInstrFn_eq_ok, addEvent_eq_ok]
  constructor
  · rintro ⟨_, ⟨hkind, rfl⟩, hexit, hreceiver, h⟩
    refine ⟨hkind, ?_, hexit, h⟩
    by_contra hsome
    exact hreceiver (Option.isSome_iff_ne_none.mpr hsome) hkind
  · rintro ⟨hkind, hnone, hexit, h⟩
    refine ⟨_, ⟨hkind, rfl⟩, hexit, ?_, h⟩
    rw [hnone]
    nofun

/-- The value of a parameter. -/
theorem eval_param {j : Nat} {v : Value} (hv : fr.args[j]? = some v) :
    (Operand.param j).eval fr = v := by
  rw [Operand.eval, hv, Option.getD_some]

theorem KeyCode.run_slot {k : KeyCode} {slot : Fin keySize} {o : Operand}
    (h : k.slots slot = some o) : (k.run fr).tkKeys slot = (o.eval fr).word := by
  simp only [run, h]

theorem fits_length {tys : List Ty} (hfits : fr.Fits tys) : fr.args.length = tys.length := by
  rw [← hfits, List.length_map]

theorem fits_ty {tys : List Ty} {j : Nat} {v : Value} {ty : Ty} (hfits : fr.Fits tys)
    (hv : fr.args[j]? = some v) (hty : tys[j]? = some ty) : v.ty = ty := by
  rw [← hfits, List.getElem?_map, hv] at hty
  exact Option.some.inj hty

/-- What is in the slots when code for patterns has run. -/
theorem Translates.run_slot {tys : List Ty} {ps : List Argument} (h : Translates tys ps c)
    (htrans : Translatable tys ps) (hfits : fr.Fits tys) {j : Nat} {p : Argument} {v : Value}
    {slot : Fin keySize} (hp : ps[j]? = some p) (hv : fr.args[j]? = some v)
    (hn : p.index = some (slot : Int)) :
    (c.key.run fr).tkKeys slot = (patternValue fr.memory v p).word := by
  obtain ⟨ty, hty⟩ := exists_type htrans.length hp
  obtain ⟨ty', htype, _⟩ := htrans.indexed _ (mem_zip_of_getElem? hp hty) (by rw [hn]; rfl)
  obtain ⟨o, ho⟩ := getArgumentValue_of_type p (v := (.param j, ty)) htype
  have hslot : c.key.slots slot = some o := (h.slots slot o).mpr ⟨j, p, ty, ty', hp, hty, hn, ho⟩
  have heval : (Operand.param j).eval fr = v := eval_param hv
  have hval := (getArgumentValue_spec p ho).2 fr (by rw [heval]; exact fits_ty hfits hv hty)
  rw [heval] at hval
  rw [KeyCode.run_slot hslot, hval]

theorem keyAgrees_of_placed (h : Placed (.function ev target)) :
    KeyAgrees (.function ev target) := by
  obtain ⟨hkind, hnone, hexit, htrans, hnames⟩ := h
  obtain ⟨c, hc⟩ := addInstrumentation_ok 0 htrans
  obtain ⟨_, hcode⟩ := addInstrumentation_spec hc
  refine ⟨c, function_code_eq_ok.mpr ⟨hkind, hnone, hexit, hc⟩, ?_⟩
  intro fr hfits hmatched
  refine ⟨?_, ?_, ?_⟩
  · rw [Code.matched, List.all_eq_true]
    intro t ht
    obtain ⟨j, p, hp, htype, rfl⟩ := (hcode.tests t).mp ht
    rw [Nat.zero_add]
    exact hmatched j p hp htype
  · intro i
    rw [KeyCode.run, hcode.mask]
    constructor
    · rintro ⟨p, hp, hn⟩
      exact ⟨p, hp, hnames p hp (by rw [hn]; rfl), hn⟩
    · rintro ⟨p, hp, _, hn⟩
      exact ⟨p, hp, hn⟩
  · intro x hx i hi
    obtain ⟨⟨p, v⟩, hpv, rfl⟩ := List.mem_map.mp hx
    obtain ⟨j, hj⟩ := List.mem_iff_getElem?.mp hpv
    obtain ⟨hp, hv⟩ := List.getElem?_zip_eq_some.mp hj
    exact hcode.run_slot htrans hfits hp hv hi.2

/-! ### When it is not placed -/

/-- A value of each type. -/
def zeroOf : Ty → Value
  | .int width => .int width 0
  | .ptr elem => .ptr elem 0
  | .other => .other

theorem zeroOf_ty (ty : Ty) : (zeroOf ty).ty = ty := by
  cases ty <;> rfl

theorem zeroOf_word (ty : Ty) : (zeroOf ty).word = 0 := by
  cases ty with
  | int width => exact BitVec.setWidth_zero ..
  | ptr elem => rfl
  | other => rfl

def zeroMemory : Memory where
  read _ ty := zeroOf ty
  typed _ ty := zeroOf_ty ty

/-- A value that matches a pattern. -/
def matching (p : Argument) : Ty → Value
  | .int width => .int width (BitVec.ofInt width p.value)
  | .ptr elem => .ptr elem 0
  | .other => .other

theorem matching_ty (p : Argument) (ty : Ty) : (matching p ty).ty = ty := by
  cases ty <;> rfl

/-- A call whose arguments match the patterns. -/
def matchingFrame (tys : List Ty) (ps : List Argument) : Frame :=
  ⟨(ps.zip tys).map fun x => matching x.1 x.2, zeroMemory, fun _ => 0⟩

theorem matchingFrame_fits {tys : List Ty} {ps : List Argument} (hlen : ps.length = tys.length) :
    (matchingFrame tys ps).Fits tys := by
  rw [Frame.Fits, matchingFrame, List.map_map]
  simp only [Function.comp_def, matching_ty]
  exact List.map_snd_zip hlen.ge

theorem matchingFrame_holds {tys : List Ty} {ps : List Argument} {j : Nat} {p : Argument}
    {width : Nat} (hp : ps[j]? = some p) (hty : tys[j]? = some (.int width)) :
    (Test.constant j p.constantMatch p.value).holds (matchingFrame tys ps) = true := by
  have harg : (matchingFrame tys ps).args[j]? =
      some (.int width (BitVec.ofInt width p.value)) := by
    have hzip : (ps.zip tys)[j]? = some (p, .int width) :=
      List.getElem?_zip_eq_some.mpr ⟨hp, hty⟩
    rw [matchingFrame, List.getElem?_map, hzip]
    rfl
  rw [Test.holds, eval_param harg]
  cases p.constantMatch <;> simp

theorem eq_of_nodup_filterMap {α β : Type*} {f : α → Option β} {xs : List α}
    (h : (xs.filterMap f).Nodup) {x y : α} {b : β} (hx : x ∈ xs) (hy : y ∈ xs) (hfx : f x = some b)
    (hfy : f y = some b) : x = y := by
  by_contra hne
  have hsymm : Std.Symm fun x y => ∀ b, f x = some b → ∀ b', f y = some b' → b ≠ b' :=
    ⟨fun x y hxy b hb b' hb' => (hxy b' hb' b hb).symm⟩
  exact (List.pairwise_filterMap.mp h).forall hx hy hne b hfx b hfy rfl

theorem placed_of_keyAgrees (h : KeyAgrees (.function ev target)) :
    Placed (.function ev target) := by
  obtain ⟨c, hc, hruns⟩ := h
  obtain ⟨hkind, hnone, hexit, hc⟩ := function_code_eq_ok.mp hc
  obtain ⟨htrans, hcode⟩ := addInstrumentation_spec hc
  refine ⟨hkind, hnone, hexit, htrans, ?_⟩
  intro p hp hsome
  obtain ⟨n, hn⟩ := Option.isSome_iff_exists.mp hsome
  obtain ⟨slot, rfl⟩ := htrans.inKey p hp n hn
  have hmatched : (Site.function ev target).Matched
      (matchingFrame (Site.function ev target).params (eventPatterns ev)) := by
    intro j q hq htype
    obtain ⟨ty, hty⟩ := exists_type htrans.length hq
    obtain ⟨width, hwidth⟩ := htrans.constant _ (mem_zip_of_getElem? hq hty) htype
    obtain rfl : ty = .int width := hwidth
    exact matchingFrame_holds hq hty
  obtain ⟨_, hmask, _⟩ := hruns _ (matchingFrame_fits htrans.length) hmatched
  obtain ⟨q, hq, hvariable, hqn⟩ := (hmask slot).mp ((hcode.mask slot).mpr ⟨p, hp, hn⟩)
  obtain rfl := eq_of_nodup_filterMap htrans.distinct hp hq hn hqn
  exact hvariable

end Function

section Field

variable {assign : FieldAssignment} {ty : Ty} {c : Code}

/-- What is stored to the key for an assignment. -/
def fieldStores (ty : Ty) (both : Bool) : List (Option (Operand × Ty)) :=
  some (.param 0, .ptr .other) :: if both then [some (.param 1, ty)] else []

theorem field_code_eq_ok : (Site.field assign ty).code = .ok c ↔
    (assign.value.type = .constant ∧ (∃ width, ty = .int width) ∧
        c.tests = [.assigned assign.operation assign.value.value] ∧
        constructKey (fieldStores ty false) 0 = .ok c.key) ∨
      assign.value.type = .variable ∧ c.tests = [] ∧
        constructKey (fieldStores ty true) 0 = .ok c.key := by
  obtain ⟨tests, key⟩ := c
  have hdone : ∀ ts stores, (do
      let key ← constructKey stores 0
      return ⟨ts, key⟩ : Except Failure Code) = .ok ⟨tests, key⟩ ↔
        tests = ts ∧ constructKey stores 0 = .ok key := by
    intro ts stores
    rw [bind_eq_ok]
    constructor
    · rintro ⟨key', hkey, h⟩
      cases h
      exact ⟨rfl, hkey⟩
    · rintro ⟨rfl, hkey⟩
      exact ⟨key, hkey, rfl⟩
  cases htype : assign.value.type <;> simp only [Site.code, appendInstrumentation, htype]
  · -- a constant
    cases ty with
    | int width => simpa [fieldStores] using hdone _ _
    | ptr elem => simp
    | other => simp
  · -- a variable
    simpa [fieldStores] using hdone _ _
  all_goals simp

/-- The slots and the bits of the key for an assignment. -/
theorem fieldStores_spec {both : Bool} {key : KeyCode}
    (h : constructKey (fieldStores ty both) 0 = .ok key) :
    key.slots 0 = some (.param 0) ∧ (both = true → key.slots 1 = some (.param 1)) ∧
      ∀ n, key.mask.getLsbD n = true ↔ n = 0 ∨ n = 1 ∧ both = true := by
  obtain ⟨hslots, hmask, _⟩ := constructKey_spec h
  refine ⟨hslots 0, ?_, ?_⟩
  · rintro rfl
    exact hslots 1
  · intro n
    rw [hmask]
    cases both with
    | false => rcases n with _ | n <;> simp [fieldStores]
    | true => rcases n with _ | _ | n <;> simp [fieldStores]

theorem fieldStores_ok (ty : Ty) (both : Bool) (hty : both = true → castable ty = true) :
    ∃ key, constructKey (fieldStores ty both) 0 = .ok key := by
  refine constructKey_ok_iff.mpr ?_
  rintro (_ | _ | j) v hv
  · cases hv
    exact ⟨by decide, rfl⟩
  · cases both with
    | false => cases hv
    | true =>
      cases hv
      exact ⟨by decide, hty rfl⟩
  · cases both <;> cases hv

theorem Names.index_eq {p : Argument} {i j : Nat} (h : Names p i) (h' : Names p j) : i = j :=
  Int.ofNat_inj.mp (Option.some.inj (h.2.symm.trans h'.2))

theorem not_names_constant {p : Argument} {i : Nat} (h : p.type = .constant) : ¬ Names p i :=
  fun hn => hn.1.1 h

theorem assigned_of_placed (h : Placed (.field assign ty)) : KeyAgrees (.field assign ty) := by
  obtain ⟨hbase, hvalue⟩ := h
  -- the code, whether the new value is in the key, and what is named
  obtain ⟨c, both, hc, htests, hkey, hnames⟩ : ∃ c both, (Site.field assign ty).code = .ok c ∧
      (∀ fr, (Site.field assign ty).Matched fr → c.matched fr = true) ∧
      constructKey (fieldStores ty both) 0 = .ok c.key ∧
      ∀ i, Names assign.value i ↔ i = 1 ∧ both = true := by
    obtain ⟨htype, hint⟩ | ⟨htype, hindex, hcast⟩ := hvalue
    · obtain ⟨key, hkey⟩ := fieldStores_ok ty false nofun
      refine ⟨⟨_, key⟩, false, field_code_eq_ok.mpr (.inl ⟨htype, hint, rfl, hkey⟩), ?_, hkey, ?_⟩
      · intro fr hmatched
        rw [Code.matched, List.all_cons, List.all_nil, Bool.and_true]
        exact hmatched htype
      · exact fun i => iff_of_false (not_names_constant htype) nofun
    · obtain ⟨key, hkey⟩ := fieldStores_ok ty true fun _ => hcast
      refine ⟨⟨_, key⟩, true, field_code_eq_ok.mpr (.inr ⟨htype, rfl, hkey⟩), fun _ _ => rfl, hkey, ?_⟩
      intro i
      rw [Names, htype, hindex]
      simp
      omega
  obtain ⟨hzero, hone, hmask⟩ := fieldStores_spec hkey
  refine ⟨c, hc, ?_⟩
  have hbase' : ∀ i, Names assign.field.base i ↔ i = 0 := by
    intro i
    constructor
    · exact fun h => h.index_eq hbase
    · rintro rfl
      exact hbase
  intro fr hfits hmatched
  refine ⟨htests fr hmatched, ?_, ?_⟩
  · intro i
    rw [KeyCode.run, hmask, Site.arguments, List.exists_mem_cons_iff, List.exists_mem_cons_iff,
      hbase', hnames]
    simp
  · obtain ⟨struct, new, ptr, hargs⟩ := List.length_eq_three.mp (fits_length hfits)
    rw [Site.values, hargs, List.zip_cons_cons, List.zip_cons_cons, List.zip_nil_left,
      List.forall_mem_cons, List.forall_mem_singleton]
    constructor
    · intro i hi
      obtain rfl : i = 0 := Fin.ext ((hbase' i).mp hi)
      rw [KeyCode.run_slot hzero, eval_param (v := struct) (by rw [hargs]; rfl)]
    · intro i hi
      obtain ⟨hi, hboth⟩ := (hnames i).mp hi
      obtain rfl : i = 1 := Fin.ext hi
      rw [KeyCode.run_slot (hone hboth), eval_param (v := new) (by rw [hargs]; rfl)]

/-- A store of `new` to the field of a structure at address 1. -/
def storeFrame (ty : Ty) (new : Value) : Frame :=
  ⟨[.ptr .other 1, new, .ptr ty 0], zeroMemory, fun _ => 0⟩

/-- A value that the assignment of a constant gives to a field that is zero. -/
def assignedBits (operation : AssignType) (width : Nat) (value : Int) : BitVec width :=
  match operation with
  | .simpleAssign => BitVec.ofInt width value
  | .plusEqual => 0 + BitVec.ofInt width value
  | .minusEqual => 0 - BitVec.ofInt width value

theorem storeFrame_holds {width : Nat} {operation : AssignType} {value : Int} :
    (Test.assigned operation value).holds
      (storeFrame (.int width) (.int width (assignedBits operation width value))) = true := by
  cases operation <;> simp [Test.holds, storeFrame, Operand.eval, zeroMemory, zeroOf, assignedBits]

theorem placed_of_assigned (h : KeyAgrees (.field assign ty)) : Placed (.field assign ty) := by
  obtain ⟨c, hc, hruns⟩ := h
  obtain ⟨htype, ⟨width, rfl⟩, _, hkey⟩ | ⟨htype, _, hkey⟩ := field_code_eq_ok.mp hc
  · obtain ⟨_, _, hmask⟩ := fieldStores_spec hkey
    obtain ⟨_, hbits, _⟩ := hruns (storeFrame (.int width)
      (.int width (assignedBits assign.operation width assign.value.value))) rfl
      fun _ => storeFrame_holds
    obtain ⟨p, hp, hn⟩ := (hbits 0).mp ((hmask 0).mpr (.inl rfl))
    obtain rfl | hp := List.mem_cons.mp hp
    · exact ⟨hn, .inl ⟨htype, width, rfl⟩⟩
    · obtain rfl := List.mem_singleton.mp hp
      exact absurd hn (not_names_constant htype)
  · obtain ⟨_, hone, hmask⟩ := fieldStores_spec hkey
    have hfits : (storeFrame ty (zeroOf ty)).Fits (Site.field assign ty).params := by
      rw [Frame.Fits, storeFrame, List.map_cons, List.map_cons, zeroOf_ty]
      rfl
    have hmatched : (Site.field assign ty).Matched (storeFrame ty (zeroOf ty)) := by
      intro hconstant
      rw [htype] at hconstant
      cases hconstant
    obtain ⟨_, hbits, hslots⟩ := hruns _ hfits hmatched
    have hcast := (constructKey_ok_iff.mp ⟨_, hkey⟩ 1 (.param 1, ty) rfl).2
    obtain ⟨p, hp, hn⟩ := (hbits 0).mp ((hmask 0).mpr (.inl rfl))
    obtain ⟨q, hq, hn'⟩ := (hbits 1).mp ((hmask 1).mpr (.inr ⟨rfl, rfl⟩))
    rw [Site.arguments, List.mem_pair] at hp hq
    obtain rfl | rfl := hp
    · obtain rfl | rfl := hq
      · cases hn.index_eq hn'
      · exact ⟨hn, .inr ⟨htype, hn'.2, hcast⟩⟩
    · obtain rfl | rfl := hq
      · -- the structure is variable 1, but its slot has the new value
        have hslot := hslots (assign.field.base, .ptr .other 1) List.mem_cons_self 1 hn'
        rw [KeyCode.run_slot (hone rfl), eval_param (v := zeroOf ty) rfl, zeroOf_word] at hslot
        cases hslot
      · cases hn.index_eq hn'

/-- The key that an event passes agrees with the event if and only if the event is placed. -/
theorem key_agrees_iff (s : Site) : KeyAgrees s ↔ Placed s := by
  cases s with
  | function ev target => exact ⟨placed_of_keyAgrees, keyAgrees_of_placed⟩
  | field assign ty => exact ⟨placed_of_assigned, assigned_of_placed⟩

def variableAt (index : Int) (name : String) : Argument :=
  .mk .variable (some index) (some name) none none none none none

/-- `s->next = x`. -/
def assignNext (s x : Int) : FieldAssignment :=
  ⟨.mk "node" (variableAt s "s") "next" 0, .simpleAssign, variableAt x "x", none⟩

example : Placed (.field (assignNext 0 1) (.ptr .other)) :=
  ⟨⟨⟨nofun, nofun⟩, rfl⟩, .inr ⟨rfl, rfl, rfl⟩⟩

/-- A call of `link (x, x)`, by the callee. -/
def linkSelf : FunctionEvent where
  function := "link"
  direction := some .entry
  context := some .callee
  argument := [variableAt 0 "x", variableAt 0 "x"]
  expectedReturnValue := none
  strict := none
  kind := none
  receiver := none

/-- An assertion that names `x` before `s` gives `x` the index 0, but the structure is in slot 0;
and no code is written for a call that has one variable in two places. -/
theorem keys_disagree :
    ¬ KeyAgrees (.field (assignNext 1 0) (.ptr .other)) ∧
      ¬ KeyAgrees (.function linkSelf ⟨[.ptr .other, .ptr .other], none⟩) := by
  constructor
  · intro h
    obtain ⟨⟨_, hindex⟩, _⟩ := placed_of_assigned h
    cases hindex
  · intro h
    obtain ⟨_, _, _, htrans, _⟩ := placed_of_keyAgrees h
    have hdistinct : ([0, 0] : List Int).Nodup := htrans.distinct
    exact absurd hdistinct (by decide)

end Field

end Tesla.Instrumenter
