/-
# `Tesla.Runtime.LifetimeTable` — the table of lifetimes, and when it is full

A sunrise of a lifetime that the store does not know takes the next slot of the
lifetime table, and no call ever gives a slot back.  So the table is the list of
the lifetimes that have begun, in the order in which they first did:

    the bounds in the store   =   the bounds of `begun ks`                  `bounds_of_run`

Both `tesla_sunrise` and `tesla_sunset` assert that there is room for another
lifetime before they look whether they need it.  A program with as many
lifetimes as the table has slots fails that assertion at the first sunrise or
sunset after the last of them has begun (`last_slot_is_fatal`).
-/
import Tesla.Runtime.Frames

namespace Tesla.Runtime

open Lib

variable {P : Program} {s s' : Store} {l l' : Lifetime} {evs : List Event} {ks : List Call}
  {classes instances : UInt32}

/-! ## The lifetimes that have begun -/

/-- The lifetimes known after a call. -/
def known (ls : List Lifetime) : Call → List Lifetime
  | .sunrise l => if ls.any (sameLifetime l) then ls else ls ++ [l]
  | .updateState .. | .sunset .. => ls

/-- The distinct lifetimes that begin in a run, oldest first. -/
def begun (ks : List Call) : List Lifetime := ks.foldl known []

theorem begun_snoc (ks : List Call) (k : Call) : begun (ks ++ [k]) = known (begun ks) k := by
  rw [begun, List.foldl_append]
  rfl

theorem prefix_known (ls : List Lifetime) (k : Call) : ls <+: known ls k := by
  cases k with
  | sunrise l =>
    rw [known]
    split
    · exact List.prefix_refl ls
    · exact List.prefix_append ls [l]
  | updateState a symbol pattern => exact List.prefix_refl ls
  | sunset l junk => exact List.prefix_refl ls

/-- Once begun, a lifetime keeps its place. -/
theorem begun_prefix (ks ks' : List Call) : begun ks <+: begun (ks ++ ks') := by
  induction ks' using List.reverseRecOn with
  | nil =>
    rw [List.append_nil]
  | append_singleton ks' k ih =>
    rw [← List.append_assoc, begun_snoc]
    exact ih.trans (prefix_known _ k)

theorem begun_distinct (ks : List Call) :
    (begun ks).Pairwise fun l l' => sameLifetime l' l = false := by
  induction ks using List.reverseRecOn with
  | nil => exact .nil
  | append_singleton ks k ih =>
    rw [begun_snoc]
    cases k with
    | sunrise l =>
      rw [known]
      split
      · exact ih
      · next hnew =>
        rw [List.pairwise_append]
        refine ⟨ih, List.pairwise_singleton .., ?_⟩
        intro l' hl' x hx
        obtain rfl := List.mem_singleton.mp hx
        rw [Bool.not_eq_true, List.any_eq_false] at hnew
        simpa using hnew l' hl'
    | updateState a symbol pattern => exact ih
    | sunset l junk => exact ih

/-! ## The table is the list of them -/

def Lifetime.bounds (l : Lifetime) : LifetimeEvent × LifetimeEvent := (l.tlBegin, l.tlEnd)

theorem known_iff {ls : List Lifetime} (h : s.bounds = ls.map Lifetime.bounds) (l : Lifetime) :
    (s.findLifetime l).isSome = ls.any (sameLifetime l) := by
  have hslots : s.tsLifetimes.any (sameStaticLifetime l) =
      s.bounds.any fun be => sameEvent l.tlBegin be.1 && sameEvent l.tlEnd be.2 := by
    rw [Store.bounds, List.any_map]
    rfl
  rw [isSome_findLifetime, hslots, h, List.any_map]
  rfl

theorem updateState_bounds {a : Ptr} {symbol : Nat} {pattern : Key}
    (h : updateState P a symbol pattern s = .ok (s', evs)) : s'.bounds = s.bounds := by
  rw [updateState] at h
  split at h
  · cases h
  · next hget => exact (updateClassState_bounds h).trans (classGet_bounds hget)

theorem bounds_of_step {k : Call} {ls : List Lifetime} (h : s.bounds = ls.map Lifetime.bounds)
    (hk : Step P s k s') : s'.bounds = (known ls k).map Lifetime.bounds := by
  obtain ⟨evs, hk⟩ := hk
  cases k with
  | sunrise l =>
    have hknown := known_iff h l
    simp only [call, sunrise] at hk
    split at hk
    · split at hk
      · next hfind =>
        cases hk
        rw [hfind, Option.isSome_some] at hknown
        rw [known, if_pos hknown.symm]
        exact h
      · next hfind =>
        cases hk
        rw [hfind, Option.isSome_none] at hknown
        rw [known, ← hknown, if_neg Bool.false_ne_true, List.map_append, ← h, Store.bounds,
          List.map_append]
        rfl
    · cases hk
  | updateState a symbol pattern => exact (updateState_bounds hk).trans h
  | sunset l junk => exact (sunset_bounds hk).1.trans h

/-- The table after a run. -/
theorem bounds_of_run (h : LibRun P classes instances ks s) :
    s.bounds = (begun ks).map Lifetime.bounds := by
  refine h.track (P := fun ks s => s.bounds = (begun ks).map Lifetime.bounds) rfl ?_
  intro ks t u k ih hstep
  rw [begun_snoc]
  exact bounds_of_step ih hstep

theorem count_of_run (h : LibRun P classes instances ks s) :
    s.tsLifetimeCount = (begun ks).length := by
  have hlen := congrArg List.length (bounds_of_run h)
  rwa [List.length_map, Store.bounds, List.length_map] at hlen

/-- The class table keeps its length. -/
theorem length_of_step {k : Call} (h : Step P s k s') : s'.tsLength = s.tsLength := by
  obtain ⟨evs, h⟩ := h
  cases k with
  | sunrise l => rw [Store.tsLength, (sunrise_classes h).1, Store.tsLength]
  | updateState a symbol pattern =>
    simp only [call, updateState] at h
    split at h
    · cases h
    · next t cls hget =>
      obtain ⟨c, _, _, rfl⟩ := classGet_claims hget
      rw [← owners_length, updateClassState_owners h, owners_length]
      exact List.length_set
  | sunset l junk => rw [← owners_length, sunset_owners h, owners_length]

theorem length_of_run (h : LibRun P classes instances ks s) : s.tsLength = classes.toNat := by
  refine h.invariant (P := fun s => s.tsLength = classes.toNat) List.length_replicate ?_
  intro t u k ht hstep
  rw [length_of_step hstep, ht]

/-! ## Slots -/

/-- Slot `i` of the lifetime table is that of `l`. -/
def Store.Occupies (s : Store) (l : Lifetime) (i : Nat) : Prop :=
  ∃ slot, s.tsLifetimes[i]? = some slot ∧ sameStaticLifetime l slot = true

theorem occupies_iff {ls : List Lifetime} (h : s.bounds = ls.map Lifetime.bounds) {i : Nat} :
    s.Occupies l i ↔ ∃ l', ls[i]? = some l' ∧ sameLifetime l l' = true := by
  have hget : (s.tsLifetimes[i]?).map (fun slot => (slot.tlsBegin, slot.tlsEnd)) =
      (ls[i]?).map Lifetime.bounds := by
    rw [← List.getElem?_map, ← List.getElem?_map, ← h]
    rfl
  constructor
  · rintro ⟨slot, hslot, hsame⟩
    rw [hslot, Option.map_some] at hget
    obtain ⟨l', hl', heq⟩ := Option.map_eq_some_iff.mp hget.symm
    obtain ⟨hb, he⟩ := Prod.mk.inj heq
    refine ⟨l', hl', ?_⟩
    rw [sameLifetime, hb, he]
    exact hsame
  · rintro ⟨l', hl', hsame⟩
    rw [hl', Option.map_some] at hget
    obtain ⟨slot, hslot, heq⟩ := Option.map_eq_some_iff.mp hget
    obtain ⟨hb, he⟩ := Prod.mk.inj heq
    refine ⟨slot, hslot, ?_⟩
    rw [sameStaticLifetime, hb, he]
    exact hsame

theorem sameLifetime_trans {x y z : Lifetime} (h : sameLifetime x y = true)
    (h' : sameLifetime y z = true) : sameLifetime x z = true := by
  simp only [sameLifetime, Bool.and_eq_true] at h h' ⊢
  exact ⟨sameEvent_trans h.1 h'.1, sameEvent_trans h.2 h'.2⟩

/-- Distinct lifetimes are found in one place at most. -/
theorem place_unique {ls : List Lifetime} (hd : ls.Pairwise fun l l' => sameLifetime l' l = false)
    {i j : Nat} {x y : Lifetime} (hi : ls[i]? = some x) (hj : ls[j]? = some y)
    (hx : sameLifetime l x = true) (hy : sameLifetime l y = true) : i = j := by
  obtain ⟨hilt, rfl⟩ := List.getElem?_eq_some_iff.mp hi
  obtain ⟨hjlt, rfl⟩ := List.getElem?_eq_some_iff.mp hj
  have hsame := sameLifetime_trans (sameLifetime_symm hx) hy
  obtain hlt | rfl | hlt := Nat.lt_trichotomy i j
  · have hne := List.pairwise_iff_getElem.mp hd i j hilt hjlt hlt
    rw [sameLifetime_symm hsame] at hne
    cases hne
  · rfl
  · have hne := List.pairwise_iff_getElem.mp hd j i hjlt hilt hlt
    rw [hsame] at hne
    cases hne

/-- A lifetime that has begun has one slot, in this store and in all that come
after it. -/
theorem occupies_one_slot (h : LibRun P classes instances ks s) (hrisen : Risen l ks) :
    ∃ i, i < s.tsLifetimeCount ∧ ∀ ks' t, Run (Step P) s ks' t → ∀ j, t.Occupies l j ↔ j = i := by
  have hany : (begun ks).any (sameLifetime l) = true := by
    rw [← known_iff (bounds_of_run h) l]
    exact (knows_iff h l).mpr hrisen
  obtain ⟨l', hmem, hsame⟩ := List.any_eq_true.mp hany
  obtain ⟨i, hi⟩ := List.mem_iff_getElem?.mp hmem
  refine ⟨i, ?_, ?_⟩
  · rw [count_of_run h]
    exact (List.getElem?_eq_some_iff.mp hi).1
  · intro ks' t hrun j
    have hplace : (begun (ks ++ ks'))[i]? = some l' := by
      obtain ⟨rest, hrest⟩ := begun_prefix ks ks'
      rw [← hrest, List.getElem?_append_left (List.getElem?_eq_some_iff.mp hi).1, hi]
    rw [occupies_iff (bounds_of_run (h.append hrun))]
    constructor
    · rintro ⟨l'', hj, hsame'⟩
      exact place_unique (begun_distinct _) hj hplace hsame' hsame
    · rintro rfl
      exact ⟨l', hplace, hsame⟩

/-! ## The assertions -/

/-- The assertions of `tesla_sunrise` and `tesla_sunset`. -/
def Abort.ofLifetimes : Abort → Bool
  | .lifetimeTableFull | .sunsetWithoutSunrise => true
  | _ => false

/-- The calls that begin or end a lifetime. -/
def Call.ofLifetimes : Call → Bool
  | .sunrise _ | .sunset .. => true
  | .updateState .. => false

/-- No assertion of the lifetime table is in `tesla_update_class_state`. -/
theorem updateClassState_error {cls symbol : Nat} {pattern : Key} {a : Abort}
    (h : updateClassState P cls symbol pattern s = .error a) : a.ofLifetimes = false := by
  rw [updateClassState] at h
  split at h
  · cases h
    rfl
  · split at h
    · cases h
      rfl
    · dsimp only at h
      split at h
      · cases h
      · split at h
        · cases h
          rfl
        · split at h
          · next hu =>
            cases h
            obtain hof | ⟨_, _, _, _, _, _, inst, _, hact⟩ := updateFound_error hu
            · cases a <;> first | rfl | cases hof
            · rw [action_error hact]
              rfl
          · cases h

theorem cleanupClass_error {key : Key} {cls : Nat} {a : Abort}
    (h : cleanupClass P key cls s = .error a) : a.ofLifetimes = false := by
  rw [cleanupClass] at h
  split at h
  · cases h
    rfl
  · exact updateClassState_error h

/-- A sunset of a known lifetime fails none of its own assertions, given room. -/
theorem sunset_error {junk : Key} {a : Abort} (hknown : (s.findLifetime l).isSome = true)
    (hroom : s.tsLifetimeCount < s.tsLength) (h : sunset P l junk s = .error a) :
    a.ofLifetimes = false := by
  obtain ⟨li, hli⟩ := Option.isSome_iff_exists.mp hknown
  have hrule : Ensures (sunset P l junk s) (fun _ => True) (fun a => a.ofLifetimes = false) := by
    refine sunset_ensures (Q := fun _ => True) hli hroom trivial ?_ (fun _ _ => trivial)
      (fun _ _ => trivial)
    intro t ls cls _ _ _
    exact .intro (fun _ _ => trivial) fun a ha => cleanupClass_error ha
  exact hrule.of_error h

/-- The next call fails an assertion of the lifetime table. -/
def FailsTable (P : Program) (s : Store) (k : Call) : Prop :=
  ∃ a : Abort, a.ofLifetimes = true ∧ call P s k = .error a

theorem failsTable_iff {k : Call}
    (hknown : ∀ l junk, k = .sunset l junk → (s.findLifetime l).isSome = true) :
    FailsTable P s k ↔ k.ofLifetimes = true ∧ ¬ s.tsLifetimeCount < s.tsLength := by
  cases k with
  | sunrise l =>
    constructor
    · rintro ⟨a, _, h⟩
      refine ⟨rfl, fun hroom => ?_⟩
      simp only [call, sunrise, if_pos hroom] at h
      split at h <;> cases h
    · rintro ⟨_, hfull⟩
      refine ⟨.lifetimeTableFull, rfl, ?_⟩
      rw [call, sunrise, if_neg hfull]
  | updateState a symbol pattern =>
    constructor
    · rintro ⟨b, hb, h⟩
      simp only [call, updateState] at h
      split at h
      · cases h
        cases hb
      · rw [updateClassState_error h] at hb
        cases hb
    · rintro ⟨h, _⟩
      cases h
  | sunset l junk =>
    constructor
    · rintro ⟨a, ha, h⟩
      refine ⟨rfl, fun hroom => ?_⟩
      rw [sunset_error (hknown l junk rfl) hroom h] at ha
      cases ha
    · rintro ⟨_, hfull⟩
      refine ⟨.lifetimeTableFull, rfl, ?_⟩
      rw [call, sunset, if_neg hfull]

/-- The lifetime table: in every run that ends only lifetimes it has begun, the next
call keeps to the assertions of `tesla_sunrise` and `tesla_sunset` exactly when it is
neither or fewer lifetimes have begun than the table has slots; and each lifetime
that has begun has one slot, the same in all stores that follow. -/
theorem lifetime_table_iff (h : LibRun P classes instances ks s) :
    (∀ k, (∀ l junk, k = .sunset l junk → Risen l ks) →
      (¬ FailsTable P s k ↔ (k.ofLifetimes = true → (begun ks).length < classes.toNat))) ∧
    ∀ l, Risen l ks → ∃ i, i < s.tsLifetimeCount ∧
      ∀ ks' t, Run (Step P) s ks' t → ∀ j, t.Occupies l j ↔ j = i := by
  refine ⟨?_, fun l hl => occupies_one_slot h hl⟩
  intro k hbegun
  have hknown : ∀ l junk, k = .sunset l junk → (s.findLifetime l).isSome = true := by
    intro l junk hk
    exact (knows_iff h l).mpr (hbegun l junk hk)
  rw [failsTable_iff hknown, count_of_run h, length_of_run h, not_and, not_not]

/-- Two slots, one lifetime: the sunset finds room. -/
theorem lifetime_table_iff_room : ∃ s,
    LibRun forkJoinProgram 2 4 [.sunrise callLifetime, .updateState 7 1 (Key.of 5)] s ∧
    ¬ FailsTable forkJoinProgram s (.sunset callLifetime (Key.of 0)) ∧
    ∃ i, i < s.tsLifetimeCount ∧ s.Occupies callLifetime i := by
  have hexec : (Call.run forkJoinProgram (fun _ => True) (storeInit 2 4)
      [.sunrise callLifetime, .updateState 7 1 (Key.of 5)]).isSome = true := by decide +kernel
  obtain ⟨s, hs⟩ := Option.isSome_iff_exists.mp hexec
  have hrun := run_of_exec hs
  have hrisen : Risen callLifetime [.sunrise callLifetime, .updateState 7 1 (Key.of 5)] :=
    ⟨callLifetime, List.mem_cons_self, by decide⟩
  obtain ⟨hcalls, hslots⟩ := lifetime_table_iff hrun
  obtain ⟨i, hi, hplace⟩ := hslots callLifetime hrisen
  refine ⟨s, hrun, ?_, i, hi, (hplace [] s .nil i).mpr rfl⟩
  refine (hcalls (.sunset callLifetime (Key.of 0)) ?_).mpr fun _ => by decide
  intro l junk hk
  cases hk
  exact hrisen

/-- One slot, one lifetime: it begins, and the library aborts when it ends. -/
theorem last_slot_is_fatal : ∃ s,
    LibRun forkJoinProgram 1 4 [.sunrise callLifetime] s ∧
    (begun ([.sunrise callLifetime] ++ [.sunset callLifetime (Key.of 0)])).length ≤ 1 ∧
    Risen callLifetime [.sunrise callLifetime] ∧
    FailsTable forkJoinProgram s (.sunset callLifetime (Key.of 0)) := by
  have hrun : LibRun forkJoinProgram 1 4 [.sunrise callLifetime] _ := .snoc _ .nil ⟨_, rfl⟩
  refine ⟨_, hrun, by decide, ⟨callLifetime, List.mem_cons_self, by decide⟩, ?_⟩
  exact ⟨.lifetimeTableFull, rfl, rfl⟩

end Tesla.Runtime
