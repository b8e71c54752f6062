/-
# `Tesla.Runtime.ClassTable` — one class slot for each description

`tesla_class_get` is a lookup in a table with open addressing, keyed by the
description pointer: it walks from the bucket of a 32-bit hash, wrapping around,
and takes the first slot that is free.  Nothing gives a slot back, neither the
calls nor `tesla_store_reset`, so the table stays settled in the sense of
`Lib.Settled` and the pointer that has a slot is led to it again.

A run here is any sequence of the library's calls, direct calls of
`tesla_class_get` and resets of the store; it keeps a log of the lookups that
succeeded, those of `tesla_update_state` included.

The bucket is `(hash + i) % len` with a 32-bit sum.  The buckets of the `len`
rounds are all of the table, and a lookup fails on a full table only, unless
the sum wraps and `len` does not divide `2 ^ 32` (`lookup_complete_iff`).
-/
import Tesla.Lib.Probe
import Tesla.Runtime.Frames

namespace Tesla.Runtime

open Lib

variable {P : Program} {s s' : Store} {description : Ptr} {cls : Nat}

/-! ## Lookups -/

/-- The probe sequence of a description in a table of `len` slots. -/
abbrev probe (len : Nat) (description : Ptr) (i : Nat) : Nat := bucket description len i

/-- The walk of `tesla_class_get`, seen from the owners. -/
theorem classGetLoop_owners (is : List Nat) :
    (classGetLoop s description is).map (fun r => (r.1.owners, r.2)) =
      claim (probe s.tsLength description) description s.owners is := by
  induction is with
  | nil => rfl
  | cons i is ih =>
    rw [classGetLoop, claim]
    rcases hc : s.tsClasses[bucket description s.tsLength i]? with _ | c
    · have hnone : s.owners[probe s.tsLength description i]? = none := by
        rw [Store.owners, List.getElem?_map, hc]
        rfl
      simp only [hnone]
      rfl
    · rw [owners_getElem? hc]
      rcases hn : c.tcAutomaton with _ | a
      · simp only [hn, Option.map_some, Store.owners, List.map_set]
      · simp only [hn]
        by_cases heq : a = description
        · rw [if_pos heq, if_pos heq]
          rfl
        · rw [if_neg heq, if_neg heq]
          exact ih

theorem classGetLoop_claim {is : List Nat} (h : classGetLoop s description is = some (s', cls)) :
    claim (probe s.tsLength description) description s.owners is = some (s'.owners, cls) := by
  rw [← classGetLoop_owners, h]
  rfl

/-- `tesla_class_get` as its callers see it: the table, the error code and `*tclassp`. -/
def classGetInto (s : Store) (description : Ptr) (tclassp : Option Nat) :
    Store × Err × Option Nat :=
  match classGet s description with
  | none => (s, .enoent, tclassp)
  | some (s', cls) => (s', .success, some cls)

/-! ## Runs -/

inductive TableOp
  | classGet (description : Ptr)
  | storeReset
  | call (k : Call)

/-- A store, and the lookups so far: a description and the slot that was returned for it. -/
structure Logged where
  store : Store
  log : List (Ptr × Nat)

/-- The lookup that a call makes. -/
def lookup (s : Store) : Call → List (Ptr × Nat)
  | .updateState a _ _ => (Runtime.classGet s a).toList.map fun r => (a, r.2)
  | .sunrise _ | .sunset .. => []

def TableOp.exec (P : Program) (x : Logged) : TableOp → Except Abort Logged
  | .classGet d =>
    .ok ⟨(classGetInto x.store d none).1,
      x.log ++ (classGetInto x.store d none).2.2.toList.map fun cls => (d, cls)⟩
  | .storeReset => .ok { x with store := Runtime.storeReset x.store }
  | .call k =>
    match Runtime.call P x.store k with
    | .error a => .error a
    | .ok (s, _) => .ok ⟨s, x.log ++ lookup x.store k⟩

def TableStep (P : Program) (x : Logged) (op : TableOp) (x' : Logged) : Prop :=
  op.exec P x = .ok x'

/-! ## The invariant -/

/-- The table is settled, and its owners are as the log says. -/
structure Tabled (x : Logged) : Prop where
  settled : Settled (probe x.store.tsLength) x.store.owners
  owned : ∀ e ∈ x.log, Owned x.store.owners e.1 e.2

/-- Whatever leaves the owners alone leaves the invariant alone. -/
theorem Tabled.of_owners {x : Logged} (h : Tabled x) (ho : s.owners = x.store.owners) :
    Tabled { x with store := s } := by
  have hlen : s.tsLength = x.store.tsLength := by rw [← owners_length, ho, owners_length]
  refine ⟨?_, ?_⟩
  · show Settled (probe s.tsLength) s.owners
    rw [hlen, ho]
    exact h.settled
  · intro e he
    rw [ho]
    exact h.owned e he

theorem Tabled.lookup {x : Logged} (h : Tabled x)
    (hget : classGet x.store description = some (s, cls)) :
    Tabled ⟨s, x.log ++ [(description, cls)]⟩ := by
  have hclaim := classGetLoop_claim hget
  have hlen : s.tsLength = x.store.tsLength := by
    obtain ⟨⟨ho, _⟩ | ⟨_, ho⟩, _⟩ := claim_spec hclaim
    · rw [← owners_length, ho, owners_length]
    · rw [← owners_length, ho, List.length_set, owners_length]
  refine ⟨?_, ?_⟩
  · show Settled (probe s.tsLength) s.owners
    rw [hlen]
    exact h.settled.claim hclaim
  · intro e he
    obtain he | he := List.mem_append.mp he
    · exact claim_extended hclaim _ _ (h.owned e he)
    · obtain rfl := List.mem_singleton.mp he
      exact claim_owned hclaim

theorem Tabled.call {x : Logged} {k : Call} {evs : List Event} (h : Tabled x)
    (hk : Runtime.call P x.store k = .ok (s, evs)) : Tabled ⟨s, x.log ++ Runtime.lookup x.store k⟩ := by
  cases k with
  | sunrise l =>
    have ho : s.owners = x.store.owners := by
      simp only [Runtime.call, sunrise] at hk
      split at hk
      · split at hk
        · obtain ⟨rfl, _⟩ := Prod.mk.inj (Except.ok.inj hk)
          rfl
        · obtain ⟨rfl, _⟩ := Prod.mk.inj (Except.ok.inj hk)
          rfl
      · cases hk
    rw [Runtime.lookup, List.append_nil]
    exact h.of_owners ho
  | updateState a symbol pattern =>
    simp only [Runtime.call, updateState] at hk
    split at hk
    · cases hk
    · next s₁ cls hget =>
      have hlog : Runtime.lookup x.store (.updateState a symbol pattern) = [(a, cls)] := by
        rw [Runtime.lookup, hget]
        rfl
      rw [hlog]
      exact (h.lookup hget).of_owners (updateClassState_owners hk)
  | sunset l junk =>
    rw [Runtime.lookup, List.append_nil]
    exact h.of_owners (sunset_owners hk)

theorem Tabled.step {x x' : Logged} {op : TableOp} (h : Tabled x) (hstep : TableStep P x op x') :
    Tabled x' := by
  cases op with
  | classGet d =>
    obtain rfl := Except.ok.inj hstep
    simp only [classGetInto]
    split
    · simpa using h
    · next s cls hget => exact h.lookup hget
  | storeReset =>
    obtain rfl := Except.ok.inj hstep
    refine h.of_owners ?_
    rw [Store.owners, storeReset, List.map_map]
    rfl
  | call k =>
    simp only [TableStep, TableOp.exec] at hstep
    split at hstep
    · cases hstep
    · next s evs hk =>
      obtain rfl := Except.ok.inj hstep
      exact h.call hk

theorem owners_storeInit (classes instances : UInt32) :
    (storeInit classes instances).owners = List.replicate classes.toNat none := by
  rw [Store.owners, storeInit, List.map_replicate]
  rfl

theorem Tabled.init (classes instances : UInt32) : Tabled ⟨storeInit classes instances, []⟩ := by
  refine ⟨?_, fun e he => absurd he List.not_mem_nil⟩
  rw [owners_storeInit]
  exact settled_replicate _

/-- The class table is a function of the description: in every run, two lookups that
succeed return the same slot exactly when they are for the same description; and a
lookup that fails changes neither the table nor `*tclassp`. -/
theorem slot_iff_description {classes instances : UInt32} {ops : List TableOp} {x : Logged}
    (h : Run (TableStep P) ⟨storeInit classes instances, []⟩ ops x) :
    (∀ e ∈ x.log, ∀ e' ∈ x.log, e.2 = e'.2 ↔ e.1 = e'.1) ∧
      ∀ d tclassp, (classGetInto x.store d tclassp).2.1 ≠ .success →
        (classGetInto x.store d tclassp).1 = x.store ∧
          (classGetInto x.store d tclassp).2.2 = tclassp := by
  have hx : Tabled x := h.invariant (Tabled.init classes instances) fun hx hstep => hx.step hstep
  refine ⟨?_, ?_⟩
  · intro e he e' he'
    have hown := hx.owned e he
    have hown' := hx.owned e' he'
    constructor
    · intro heq
      rw [← heq] at hown'
      exact hown.unique hown'
    · intro heq
      rw [← heq] at hown'
      exact hx.settled.owned_unique hown hown'
  · intro d tclassp hfail
    simp only [classGetInto] at hfail ⊢
    split at hfail
    · exact ⟨rfl, rfl⟩
    · exact absurd rfl hfail

/-- Two descriptions in a table of two, the second of which is moved on, and a reset. -/
theorem slot_iff_description_collision :
    ∃ x, Run (TableStep forkJoinProgram) ⟨storeInit 2 4, []⟩
        [.classGet 7, .classGet 9, .storeReset, .classGet 9, .classGet 7] x ∧
      x.log = [(7, 1), (9, 0), (9, 0), (7, 1)] ∧
      ∀ e ∈ x.log, ∀ e' ∈ x.log, e.2 = e'.2 ↔ e.1 = e'.1 := by
  have hrun : Run (TableStep forkJoinProgram) ⟨storeInit 2 4, []⟩
      [.classGet 7, .classGet 9, .storeReset, .classGet 9, .classGet 7] _ :=
    .snoc _ (.snoc _ (.snoc _ (.snoc _ (.snoc _ .nil rfl) rfl) rfl) rfl) rfl
  exact ⟨_, hrun, by decide, (slot_iff_description hrun).1⟩

/-! ## Lookups that fail -/

/-- One call of `tesla_class_get`, which asserts that it is not passed NULL. -/
def LookupStep (s : Store) (description : Ptr) (s' : Store) : Prop :=
  description ≠ 0 ∧ (classGetInto s description none).1 = s'

theorem LookupStep.tsLength (h : LookupStep s description s') : s'.tsLength = s.tsLength := by
  obtain ⟨_, rfl⟩ := h
  simp only [classGetInto]
  split
  · rfl
  · next s' cls hget =>
    obtain ⟨⟨ho, _⟩ | ⟨_, ho⟩, _⟩ := claim_spec (classGetLoop_claim hget)
    · rw [← owners_length, ho, owners_length]
    · rw [← owners_length, ho, List.length_set, owners_length]

theorem classGetInto_enoent_iff : (classGetInto s description none).2.1 = .enoent ↔
    claim (probe s.tsLength description) description s.owners (List.range s.tsLength) = none := by
  rw [← classGetLoop_owners, Option.map_eq_none_iff]
  show _ ↔ classGet s description = none
  simp only [classGetInto]
  split
  · next h => simp [h]
  · next h => simp [h]

/-- The hash a lookup starts from. -/
abbrev descHash (description : Ptr) : Nat := (fnvHash32 (description.setWidth 32)).toNat

/-- The buckets of a lookup are consecutive numbers that wrap at `2 ^ 32`. -/
theorem probe_wrapped (len : Nat) : probe len description = wrapped (2 ^ 32) (descHash description) len :=
  rfl

/-- The descriptions whose lookup starts at bucket `v`: the prime of the hash has
an inverse modulo `2 ^ 32`, and the upper half of the pointer is free. -/
def startingAt (high : BitVec 32) (v : Nat) : Ptr := high ++ (BitVec.ofNat 32 v * 0x359c449b)

theorem startingAt_high (high : BitVec 32) (v : Nat) :
    (startingAt high v).extractLsb' 32 32 = high := by
  rw [startingAt]
  exact BitVec.extractLsb'_append_eq_left

theorem startingAt_hash (high : BitVec 32) (v : Nat) :
    fnvHash32 ((startingAt high v).setWidth 32) = BitVec.ofNat 32 v := by
  have hlow : (startingAt high v).setWidth 32 = BitVec.ofNat 32 v * 0x359c449b := by
    rw [startingAt]
    exact BitVec.setWidth_append_eq_right
  have hinv : (0x359c449b : BitVec 32) * 0x01000193 = 1#32 := by decide
  rw [fnvHash32, hlow, BitVec.mul_assoc, hinv, BitVec.mul_one]

theorem startingAt_probe (high : BitVec 32) {v len : Nat} (hv : v < len) (hlen : len < 2 ^ 32) :
    probe len (startingAt high v) 0 = v := by
  rw [probe_wrapped, wrapped, descHash, startingAt_hash, BitVec.toNat_ofNat, Nat.add_zero, Nat.mod_mod,
    Nat.mod_eq_of_lt (show v < 2 ^ 32 by omega), Nat.mod_eq_of_lt hv]

/-- Taking the first slot looked at, which is free. -/
theorem claim_first {κ : Type*} [DecidableEq κ] {f : Nat → Nat} {k : κ} {t : List (Option κ)}
    {n b : Nat} (hn : 0 < n) (hb : f 0 = b) (hfree : t[b]? = some none) :
    claim f k t (List.range n) = some (t.set b (some k), b) := by
  obtain ⟨n, rfl⟩ := Nat.exists_eq_succ_of_ne_zero hn.ne'
  rw [List.range_succ_eq_map, claim, hb, hfree]

/-- Any set of slots can be taken, each by a description of its own. -/
theorem run_of_slots (classes instances : UInt32) {high : BitVec 32} (hhigh : high ≠ 0)
    {vs : List Nat} (hnd : vs.Nodup) (hlt : ∀ v ∈ vs, v < classes.toNat) :
    ∃ s, Run LookupStep (storeInit classes instances) (vs.map (startingAt high)) s ∧
      s.owners = (List.range classes.toNat).map fun v =>
        if v ∈ vs then some (startingAt high v) else none := by
  induction vs using List.reverseRecOn with
  | nil =>
    refine ⟨_, .nil, ?_⟩
    rw [owners_storeInit]
    simp
  | append_singleton vs v ih =>
    obtain ⟨hnd, -, hdisj⟩ := List.nodup_append.mp hnd
    obtain ⟨hlt, hv⟩ := List.forall_mem_append.mp hlt
    have hv := hv v (List.mem_singleton.mpr rfl)
    have hnew : v ∉ vs := fun h => hdisj v h v (List.mem_singleton.mpr rfl) rfl
    obtain ⟨s, hrun, hown⟩ := ih hnd hlt
    have hlen : s.tsLength = classes.toNat := by
      rw [← owners_length, hown, List.length_map, List.length_range]
    have hfree : s.owners[v]? = some none := by
      rw [hown, List.getElem?_map, List.getElem?_range hv, Option.map_some, if_neg hnew]
    have hclaim := claim_first (k := startingAt high v) (Nat.zero_lt_of_lt hv)
      (startingAt_probe high hv classes.toNat_lt) hfree
    rw [← hlen, ← classGetLoop_owners] at hclaim
    obtain ⟨⟨s', cls⟩, hget, hs'⟩ := Option.map_eq_some_iff.mp hclaim
    have hne : startingAt high v ≠ 0 := by
      intro h
      have hzero := startingAt_high high v
      rw [h] at hzero
      exact hhigh (hzero.symm.trans (by decide))
    have hstep : LookupStep s (startingAt high v) s' := by
      refine ⟨hne, ?_⟩
      have hget' : classGet s (startingAt high v) = some (s', cls) := hget
      rw [classGetInto, hget']
    refine ⟨s', ?_, ?_⟩
    · rw [List.map_append]
      exact .snoc _ hrun hstep
    · rw [(Prod.mk.inj hs').1, hown]
      refine List.ext_getElem? fun j => ?_
      rw [List.getElem?_set, List.length_map, List.length_range, List.getElem?_map,
        List.getElem?_map]
      by_cases hj : v = j
      · subst hj
        simp [hv]
      · have hne : ¬ j = v := Ne.symm hj
        by_cases hjlt : j < classes.toNat
        · simp [hj, hjlt, hne]
        · simp [hj, hjlt]

/-- Class lookup is complete, for a description and a table size, exactly when
the size divides `2 ^ 32` or the hash of the description is that far below it. -/
theorem lookup_complete_iff {classes instances : UInt32} (hpos : classes ≠ 0)
    (description : Ptr) :
    (∀ ds s, Run LookupStep (storeInit classes instances) ds s →
      (classGetInto s description none).2.1 = .enoent →
        ∀ c ∈ s.tsClasses, ∃ a, c.tcAutomaton = some a ∧ a ≠ description) ↔
    classes.toNat ∣ 2 ^ 32 ∨
      (fnvHash32 (description.setWidth 32)).toNat + classes.toNat ≤ 2 ^ 32 := by
  have hpos : 0 < classes.toNat := by
    rw [Nat.pos_iff_ne_zero]
    exact fun h => hpos (UInt32.toNat_inj.mp h)
  have hin : ∀ i, probe classes.toNat description i < classes.toNat := fun i => Nat.mod_lt _ hpos
  rw [← covers_wrap_iff (BitVec.isLt _) hpos classes.toNat_lt.le, ← probe_wrapped]
  constructor
  · intro h
    by_contra hnot
    simp only [Covers, not_forall, not_exists, not_and] at hnot
    obtain ⟨b, hb, hmiss⟩ := hnot
    -- everything but bucket `b` is taken, by descriptions with another upper half
    obtain ⟨high, hne, hhigh⟩ : ∃ high : BitVec 32, high ≠ 0 ∧
        high ≠ description.extractLsb' 32 32 := by
      by_cases h1 : description.extractLsb' 32 32 = 1
      · exact ⟨2, by decide, by rw [h1]; decide⟩
      · exact ⟨1, by decide, Ne.symm h1⟩
    have hnodup : ((List.range classes.toNat).filter (· ≠ b)).Nodup := List.nodup_range.filter _
    obtain ⟨s, hrun, hown⟩ := run_of_slots classes instances hne hnodup
      fun v hv => List.mem_range.mp (List.mem_filter.mp hv).1
    have hlen : s.tsLength = classes.toNat := by
      rw [← owners_length, hown, List.length_map, List.length_range]
    have hslot : ∀ v < classes.toNat, s.owners[v]? =
        some (if v ≠ b then some (startingAt high v) else none) := by
      intro v hv
      rw [hown, List.getElem?_map, List.getElem?_range hv]
      simp [hv]
    have hnone : (classGetInto s description none).2.1 = .enoent := by
      rw [classGetInto_enoent_iff, hlen, claim_none_iff fun i _ => by
        rw [owners_length, hlen]; exact hin i]
      intro i hi
      refine ⟨startingAt high (probe classes.toNat description i), ?_, ?_⟩
      · intro heq
        have hhi := startingAt_high high (probe classes.toNat description i)
        rw [heq] at hhi
        exact hhigh hhi.symm
      · rw [Owned, hslot _ (hin i), if_pos (hmiss i (List.mem_range.mp hi))]
    have hfree := hslot b hb
    rw [if_neg (not_not.mpr rfl), Store.owners, List.getElem?_map] at hfree
    obtain ⟨c, hc, hca⟩ := Option.map_eq_some_iff.mp hfree
    obtain ⟨a, ha, -⟩ := h _ s hrun hnone c (List.mem_of_getElem? hc)
    rw [hca] at ha
    cases ha
  · intro hcov ds s hrun hnone c hc
    have hlen : s.tsLength = classes.toNat := by
      refine hrun.invariant (P := fun s => s.tsLength = classes.toNat) ?_
        fun ht hstep => hstep.tsLength.trans ht
      rw [Store.tsLength, storeInit, List.length_replicate]
    rw [classGetInto_enoent_iff, hlen] at hnone
    have hown : s.owners.length = classes.toNat := (owners_length s).trans hlen
    rw [← hown] at hcov hnone hin
    obtain ⟨b, hb⟩ := List.mem_iff_getElem?.mp hc
    have hblt := (List.getElem?_eq_some_iff.mp (owners_getElem? hb)).1
    obtain ⟨a, hne, ha⟩ := hcov.full hin hnone b hblt
    rw [Owned, owners_getElem? hb] at ha
    exact ⟨a, Option.some.inj ha, hne⟩

theorem lookup_complete_iff_seven : ¬ 3 ∣ 2 ^ 32 ∧
    ∀ ds s, Run LookupStep (storeInit 3 4) ds s → (classGetInto s 7 none).2.1 = .enoent →
      ∀ c ∈ s.tsClasses, ∃ a, c.tcAutomaton = some a ∧ a ≠ 7 :=
  ⟨by decide, (lookup_complete_iff (by decide) 7).mpr (.inr (by decide))⟩

/-- In a table of three, the buckets of a description with the largest hash are
0, 0 and 1. -/
theorem lookup_misses_free_slot : ∃ s, Run LookupStep (storeInit 3 4)
      [0x100000000, 0x1359c449b] s ∧
    (classGetInto s 0xca63bb65 none).2.1 = .enoent ∧
    ¬ ∀ c ∈ s.tsClasses, ∃ a, c.tcAutomaton = some a ∧ a ≠ 0xca63bb65 := by
  have hrun : Run LookupStep (storeInit 3 4) [0x100000000, 0x1359c449b]
      ⟨[{ Class.fresh 4 with tcAutomaton := some 0x100000000 },
        { Class.fresh 4 with tcAutomaton := some 0x1359c449b }, Class.fresh 4], []⟩ :=
    .snoc _ (.snoc _ .nil ⟨by decide, rfl⟩) ⟨by decide, rfl⟩
  refine ⟨_, hrun, by decide, fun h => ?_⟩
  obtain ⟨a, ha, -⟩ := h (Class.fresh 4) (by decide)
  cases ha

end Tesla.Runtime
