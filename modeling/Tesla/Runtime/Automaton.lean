/-
# `Tesla.Runtime.Automaton` — the static descriptions the instrumented program is linked with

`struct tesla_automaton` and what it points to, as far as the run-time reads
it: the transitions of each input symbol, the symbol that means cleanup, and
the lifetime.  The names, descriptions and symbol names are only ever
printed, so they are left out.

An automaton is handed to the library as a pointer and recognised by it, so
the program is a map from description pointers to descriptions (`Program`).

Two lifetimes are the same when `same_static_lifetime` says so.  That
function compares lengths and hashes and then calls `strncmp`, which stops
at the first NUL; `strncmp` is written out here for that reason.
-/
import Tesla.Runtime.Key

namespace Tesla.Runtime

/-- `struct tesla_transition`. -/
structure Transition where
  fromState : Nat
  fromMask : Mask
  toState : Nat
  toMask : Mask
  flags : BitVec 32
  deriving DecidableEq

/-- `t->flags & TESLA_TRANS_INIT`. -/
def Transition.init (t : Transition) : Bool := t.flags &&& 0x02 != 0

/-- `t->flags & TESLA_TRANS_CLEANUP`. -/
def Transition.cleanup (t : Transition) : Bool := t.flags &&& 0x04 != 0

/-- A transition that forgets part of the name: `!SUBSET(from_mask, to_mask)`. -/
def Transition.Loses (t : Transition) : Prop := ¬ SubMask t.fromMask t.toMask

instance (t : Transition) : Decidable t.Loses :=
  inferInstanceAs (Decidable (¬ _))

/-- A transition that adds to the name: `!SUBSET(to_mask, from_mask)`. -/
def Transition.Gains (t : Transition) : Prop := ¬ SubMask t.toMask t.fromMask

instance (t : Transition) : Decidable t.Gains :=
  inferInstanceAs (Decidable (¬ _))

/-! ## Lifetimes -/

/-- `strncmp`, on strings whose bytes are followed by a NUL. -/
def strncmp : Nat → List UInt8 → List UInt8 → Int
  | 0, _, _ => 0
  | n + 1, xs, ys =>
      let x := xs.headD 0
      let y := ys.headD 0
      if x ≠ y then (x.toNat : Int) - y.toNat
      else if x = 0 then 0
      else strncmp n xs.tail ys.tail

/-- `struct tesla_lifetime_event`. -/
structure LifetimeEvent where
  tleRepr : List UInt8
  tleLength : Nat
  tleHash : BitVec 32
  deriving DecidableEq

/-- `struct tesla_lifetime`. -/
structure Lifetime where
  tlBegin : LifetimeEvent
  tlEnd : LifetimeEvent
  deriving DecidableEq

/-- `struct tesla_automaton`. -/
structure Automaton where
  taTransitions : List (List Transition)
  taCleanupSymbol : Nat
  taLifetime : Lifetime
  deriving DecidableEq

/-- `ta_alphabet_size`: the instrumenter emits the number of symbols. -/
def Automaton.taAlphabetSize (a : Automaton) : Nat := a.taTransitions.length

/-- Every transition of every symbol. -/
def Automaton.Has (a : Automaton) (t : Transition) : Prop :=
  ∃ trans ∈ a.taTransitions, t ∈ trans

/-- A description pointer; NULL is never passed to the library. -/
abbrev Ptr := BitVec 64

/-- What the library is linked with: the descriptions behind the pointers,
and the global `have_transitions` the notification code keeps. -/
structure Program where
  automaton : Ptr → Automaton
  haveTransitions : Bool

/-- `struct tesla_lifetime_state`.  A class is pointed to by its index in the
store's class table; `none` is NULL. -/
structure LifetimeState where
  tlsBegin : LifetimeEvent
  tlsEnd : LifetimeEvent
  tlsClasses : List (Option Nat)
  tlsDynClasses : List (Option Nat)
  tlsDynCapacity : Nat
  tlsDynCount : Nat
  deriving DecidableEq

/-- The two bounds agree in length, hash and, up to the first NUL, in text. -/
def sameEvent (x y : LifetimeEvent) : Bool :=
  x.tleLength == y.tleLength && x.tleHash == y.tleHash &&
    strncmp x.tleLength x.tleRepr y.tleRepr == 0

/-- `same_static_lifetime`.  The source interleaves the six comparisons; none
has an effect, so they are grouped by bound. -/
def sameStaticLifetime (x : Lifetime) (y : LifetimeState) : Bool :=
  sameEvent x.tlBegin y.tlsBegin && sameEvent x.tlEnd y.tlsEnd

/-- `same_lifetime`. -/
def sameLifetime (x y : Lifetime) : Bool :=
  sameEvent x.tlBegin y.tlBegin && sameEvent x.tlEnd y.tlEnd

/-! ## Sameness is an equivalence -/

theorem strncmp_self (n : Nat) (xs : List UInt8) : strncmp n xs xs = 0 := by
  induction n generalizing xs with
  | zero => rfl
  | succ n ih =>
      simp only [strncmp, ne_eq, not_true_eq_false, if_false]
      split
      · rfl
      · exact ih xs.tail

/-- One round of `strncmp`, read as a condition. -/
theorem strncmp_succ_eq_zero {n : Nat} {xs ys : List UInt8} :
    strncmp (n + 1) xs ys = 0 ↔
      xs.headD 0 = ys.headD 0 ∧ (xs.headD 0 = 0 ∨ strncmp n xs.tail ys.tail = 0) := by
  simp only [strncmp]
  split
  · rename_i hne
    constructor
    · intro h
      have : (xs.headD 0).toNat = (ys.headD 0).toNat := by omega
      exact absurd (UInt8.toNat_inj.mp this) hne
    · intro h; exact absurd h.1 hne
  · rename_i he
    rw [not_not] at he
    split
    · rename_i h0
      exact ⟨fun _ => ⟨he, Or.inl h0⟩, fun _ => rfl⟩
    · rename_i h0
      exact ⟨fun h => ⟨he, Or.inr h⟩, fun h => h.2.resolve_left h0⟩

theorem strncmp_symm {n : Nat} {xs ys : List UInt8} (h : strncmp n xs ys = 0) :
    strncmp n ys xs = 0 := by
  induction n generalizing xs ys with
  | zero => rfl
  | succ n ih =>
      rw [strncmp_succ_eq_zero] at h ⊢
      exact ⟨h.1.symm, h.2.imp (fun h0 => h.1 ▸ h0) ih⟩

theorem strncmp_trans {n : Nat} {xs ys zs : List UInt8} (h : strncmp n xs ys = 0)
    (h' : strncmp n ys zs = 0) : strncmp n xs zs = 0 := by
  induction n generalizing xs ys zs with
  | zero => rfl
  | succ n ih =>
      rw [strncmp_succ_eq_zero] at h h' ⊢
      refine ⟨h.1.trans h'.1, ?_⟩
      rcases h.2 with h0 | ht
      · exact Or.inl h0
      · rcases h'.2 with h0 | ht'
        · exact Or.inl (h.1.trans h0)
        · exact Or.inr (ih ht ht')

theorem sameEvent_iff {x y : LifetimeEvent} :
    sameEvent x y = true ↔ x.tleLength = y.tleLength ∧ x.tleHash = y.tleHash ∧
      strncmp x.tleLength x.tleRepr y.tleRepr = 0 := by
  simp [sameEvent, and_assoc]

theorem sameEvent_refl (x : LifetimeEvent) : sameEvent x x = true :=
  sameEvent_iff.mpr ⟨rfl, rfl, strncmp_self _ _⟩

theorem sameEvent_symm {x y : LifetimeEvent} (h : sameEvent x y = true) :
    sameEvent y x = true := by
  rw [sameEvent_iff] at h ⊢
  exact ⟨h.1.symm, h.2.1.symm, h.1 ▸ strncmp_symm h.2.2⟩

theorem sameEvent_trans {x y z : LifetimeEvent} (h : sameEvent x y = true)
    (h' : sameEvent y z = true) : sameEvent x z = true := by
  rw [sameEvent_iff] at h h' ⊢
  exact ⟨h.1.trans h'.1, h.2.1.trans h'.2.1, strncmp_trans h.2.2 (h.1 ▸ h'.2.2)⟩

theorem sameLifetime_symm {x y : Lifetime} (h : sameLifetime x y = true) :
    sameLifetime y x = true := by
  simp only [sameLifetime, Bool.and_eq_true] at h ⊢
  exact ⟨sameEvent_symm h.1, sameEvent_symm h.2⟩

/-- A lifetime state answers alike to lifetimes that are the same. -/
theorem sameStaticLifetime_congr {x y : Lifetime} (h : sameLifetime x y = true)
    (z : LifetimeState) : sameStaticLifetime x z = sameStaticLifetime y z := by
  have h' := sameLifetime_symm h
  simp only [sameLifetime, Bool.and_eq_true] at h h'
  rw [Bool.eq_iff_iff]
  simp only [sameStaticLifetime, Bool.and_eq_true]
  exact ⟨fun hz => ⟨sameEvent_trans h'.1 hz.1, sameEvent_trans h'.2 hz.2⟩,
    fun hz => ⟨sameEvent_trans h.1 hz.1, sameEvent_trans h.2 hz.2⟩⟩

/-! ## Sameness and equality

`tle_repr` is a serialised message and may hold any byte.  `strncmp` ends at a
NUL, so what comes after one is compared by the hash alone. -/

/-- The two strings agree up to a NUL, which is part of both. -/
def AgreeToNul (xs ys : List UInt8) : Prop :=
  ∃ i, xs.take (i + 1) = ys.take (i + 1) ∧ xs[i]? = some 0

theorem agreeToNul_cons {x y : UInt8} {xs ys : List UInt8} :
    AgreeToNul (x :: xs) (y :: ys) ↔ x = y ∧ (x = 0 ∨ AgreeToNul xs ys) := by
  constructor
  · intro ⟨i, htake, hnul⟩
    obtain ⟨rfl, hrest⟩ := List.cons.inj htake
    refine ⟨rfl, ?_⟩
    cases i with
    | zero => exact .inl (Option.some.inj hnul)
    | succ i => exact .inr ⟨i, hrest, hnul⟩
  · rintro ⟨rfl, rfl | ⟨i, htake, hnul⟩⟩
    · exact ⟨0, rfl, rfl⟩
    · exact ⟨i + 1, congrArg (x :: ·) htake, hnul⟩

theorem strncmp_length_eq_zero {xs ys : List UInt8} (hlen : xs.length = ys.length) :
    strncmp xs.length xs ys = 0 ↔ xs = ys ∨ AgreeToNul xs ys := by
  induction xs generalizing ys with
  | nil =>
      obtain rfl := List.length_eq_zero_iff.mp hlen.symm
      simp [strncmp]
  | cons x xs ih =>
      obtain ⟨y, ys, rfl⟩ := List.exists_cons_of_length_eq_add_one hlen.symm
      have hlen : xs.length = ys.length := Nat.succ.inj hlen
      rw [List.length_cons, strncmp_succ_eq_zero, List.headD_cons, List.headD_cons, List.tail_cons,
        List.tail_cons, ih hlen, agreeToNul_cons, List.cons.injEq]
      constructor
      · rintro ⟨rfl, h0 | rfl | h⟩
        · exact .inr ⟨rfl, .inl h0⟩
        · exact .inl ⟨rfl, rfl⟩
        · exact .inr ⟨rfl, .inr h⟩
      · rintro (⟨rfl, rfl⟩ | ⟨rfl, h⟩)
        · exact ⟨rfl, .inr (.inl rfl)⟩
        · exact ⟨rfl, h.imp_right .inr⟩

/-- What `InstrContext::BuildLifetimeEvent` emits for a serialised message, `h`
being the hash.  A message has less than `2 ^ 31` bytes. -/
def LifetimeEvent.ofRepr (h : List UInt8 → BitVec 32) (repr : List UInt8) : LifetimeEvent :=
  ⟨repr, repr.length, h repr⟩

/-- Different messages of the same length and the same hash that agree up to a
NUL. -/
structure Confused (h : List UInt8 → BitVec 32) (x y : List UInt8) : Prop where
  ne : x ≠ y
  length : x.length = y.length
  hash : h x = h y
  agree : AgreeToNul x y

theorem sameEvent_ofRepr_iff {h : List UInt8 → BitVec 32} {x y : List UInt8} :
    sameEvent (.ofRepr h x) (.ofRepr h y) = true ↔ x = y ∨ Confused h x y := by
  rw [sameEvent_iff]
  constructor
  · intro ⟨hlen, hhash, hcmp⟩
    by_cases hxy : x = y
    · exact .inl hxy
    · rcases (strncmp_length_eq_zero hlen).mp hcmp with heq | hagree
      · exact absurd heq hxy
      · exact .inr ⟨hxy, hlen, hhash, hagree⟩
  · rintro (rfl | hc)
    · exact ⟨rfl, rfl, strncmp_self _ _⟩
    · exact ⟨hc.length, hc.hash, (strncmp_length_eq_zero hc.length).mpr (.inr hc.agree)⟩

/-- Lifetime identity: the comparison is that of the representations unless each
bound is equal to the other's or confused with it, and one of them is confused. -/
theorem same_static_lifetime_iff {h : List UInt8 → BitVec 32} {x : Lifetime}
    {y : LifetimeState} {b e b' e' : List UInt8}
    (hb : x.tlBegin = .ofRepr h b) (he : x.tlEnd = .ofRepr h e)
    (hb' : y.tlsBegin = .ofRepr h b') (he' : y.tlsEnd = .ofRepr h e') :
    (sameStaticLifetime x y = true ↔ b = b' ∧ e = e') ↔
      ¬ ((b = b' ∨ Confused h b b') ∧ (e = e' ∨ Confused h e e') ∧
        (Confused h b b' ∨ Confused h e e')) := by
  rw [sameStaticLifetime, hb, he, hb', he', Bool.and_eq_true, sameEvent_ofRepr_iff,
    sameEvent_ofRepr_iff]
  constructor
  · rintro hiff ⟨hbegin, hend, hconfused⟩
    obtain ⟨heqb, heqe⟩ := hiff.mp ⟨hbegin, hend⟩
    exact hconfused.elim (fun hc => hc.ne heqb) fun hc => hc.ne heqe
  · intro hno
    refine ⟨fun ⟨hbegin, hend⟩ => ?_, fun ⟨heqb, heqe⟩ => ⟨.inl heqb, .inl heqe⟩⟩
    obtain ⟨hnob, hnoe⟩ := not_or.mp fun hconfused => hno ⟨hbegin, hend, hconfused⟩
    exact ⟨hbegin.resolve_right hnob, hend.resolve_right hnoe⟩

/-- Two calls of functions whose messages differ before the first NUL. -/
theorem same_static_lifetime_iff_apart :
    (sameStaticLifetime ⟨.ofRepr (fun _ => 0) [10, 0, 2], .ofRepr (fun _ => 0) [8, 1]⟩
        ⟨.ofRepr (fun _ => 0) [11, 0, 2], .ofRepr (fun _ => 0) [8, 1], [], [], 0, 0⟩ = true ↔
      ([10, 0, 2] : List UInt8) = [11, 0, 2] ∧ ([8, 1] : List UInt8) = [8, 1]) := by
  refine (same_static_lifetime_iff (h := fun _ => 0) rfl rfl rfl rfl).mpr ?_
  rintro ⟨hb | hb, -, -⟩
  · exact absurd hb (by decide)
  · obtain ⟨i, htake, -⟩ := hb.agree
    have hhead := (List.cons.inj htake).1
    exact absurd hhead (by decide)

/-- Behind a NUL only the hash tells two lifetimes apart, and here it does not. -/
theorem nul_hides_difference :
    ¬ (sameStaticLifetime ⟨.ofRepr (fun _ => 0) [10, 0, 2], .ofRepr (fun _ => 0) [8, 1]⟩
        ⟨.ofRepr (fun _ => 0) [10, 0, 3], .ofRepr (fun _ => 0) [8, 1], [], [], 0, 0⟩ = true ↔
      ([10, 0, 2] : List UInt8) = [10, 0, 3] ∧ ([8, 1] : List UInt8) = [8, 1]) := by
  decide

end Tesla.Runtime
