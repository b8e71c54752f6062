/-
# `Tesla.Runtime.Lifetimes` — the lifetimes a store knows, and the events it ignores

`tesla_update_class_state` ignores an event when it finds no entry for the
automaton's lifetime in the store's table.  `tesla_sunrise` adds an entry
when there is none; `tesla_sunset` empties the registrations of an entry and
leaves the entry where it is.  So

    the store knows l   ⟺   some sunrise of l has happened                 `knows_iff`

at any time before, and a lifetime that has ended is still known: the first
event after the sunset starts the automaton again (`event_after_sunset_starts`).
`ignored_iff` compares this with the intended reading, that events are
ignored whenever the lifetime is not open (`isOpen`).
-/
import Tesla.Runtime.Accounting

namespace Tesla.Runtime

open Lib

variable {P : Program} {s s' : Store} {l l' : Lifetime} {evs evs' : List Event} {li : Nat}

/-! ## The bounds of the known lifetimes -/

/-- The lifetimes in the table, without their registrations. -/
def Store.bounds (s : Store) : List (LifetimeEvent × LifetimeEvent) :=
  s.tsLifetimes.map fun ls => (ls.tlsBegin, ls.tlsEnd)

theorem findLifetime_congr (h : s'.bounds = s.bounds) (l : Lifetime) :
    s'.findLifetime l = s.findLifetime l := by
  have hmap : ∀ t : Store, t.findLifetime l =
      t.bounds.findIdx? fun be => sameEvent l.tlBegin be.1 && sameEvent l.tlEnd be.2 := by
    intro t
    rw [Store.bounds, List.findIdx?_map]
    rfl
  rw [hmap, hmap, h]

theorem register_bounds {ls ls' : LifetimeState} {cls : Nat} (h : register ls cls = .ok ls') :
    ls'.tlsBegin = ls.tlsBegin ∧ ls'.tlsEnd = ls.tlsEnd := by
  simp only [register] at h
  split at h
  · cases h
    exact ⟨rfl, rfl⟩
  · split at h
    · cases h
      rw [growDyn]
      split <;> exact ⟨rfl, rfl⟩
    · cases h

theorem Updated.bounds {autom : Automaton} {cls symbol : Nat} {pattern : Key} {c c' : Class}
    {ls ls' : LifetimeState} (h : Updated P autom cls symbol pattern c ls c' ls' evs) :
    ls'.tlsBegin = ls.tlsBegin ∧ ls'.tlsEnd = ls.tlsEnd := by
  cases h with
  | returned => exact ⟨rfl, rfl⟩
  | delivered hp => cases hp with
    | ready => exact ⟨rfl, rfl⟩
    | init _ _ _ _ hreg => exact register_bounds hreg

theorem bounds_set {ls ls' : LifetimeState} {cs : List Class} (hls : s.tsLifetimes[li]? = some ls)
    (h : ls'.tlsBegin = ls.tlsBegin ∧ ls'.tlsEnd = ls.tlsEnd) :
    Store.bounds ⟨cs, s.tsLifetimes.set li ls'⟩ = s.bounds := by
  obtain ⟨hlt, rfl⟩ := List.getElem?_eq_some_iff.mp hls
  have hlt' : li < s.bounds.length := by simpa [Store.bounds] using hlt
  have hself := List.set_getElem_self hlt'
  simpa only [Store.bounds, List.map_set, List.getElem_map, h.1, h.2] using hself

theorem bounds_modifyLifetime (li : Nat) {f : LifetimeState → LifetimeState}
    (hf : ∀ ls, (f ls).tlsBegin = ls.tlsBegin ∧ (f ls).tlsEnd = ls.tlsEnd) :
    (s.modifyLifetime li f).bounds = s.bounds := by
  refine List.ext_getElem? fun j => ?_
  simp only [Store.bounds, Store.modifyLifetime, List.getElem?_map, List.getElem?_modify]
  split
  · cases s.tsLifetimes[j]? with
    | none => rfl
    | some ls => simp [hf ls]
  · simp

theorem updateClassState_bounds {cls symbol : Nat} {pattern : Key}
    (h : updateClassState P cls symbol pattern s = .ok (s', evs)) : s'.bounds = s.bounds := by
  obtain ⟨c, a, _, _, ⟨_, rfl, _⟩ | ⟨li, ls, c', ls', _, hls, hu, rfl⟩⟩ := updateClassState_spec h
  · rfl
  · exact bounds_set hls hu.bounds

theorem cleanupClass_bounds {key : Key} {cls : Nat}
    (h : cleanupClass P key cls s = .ok (s', evs)) : s'.bounds = s.bounds := by
  simp only [cleanupClass] at h
  split at h
  · cases h
  · exact updateClassState_bounds h

theorem sunsetLoop_bounds {key : Key} {slots : LifetimeState → List (Option Nat)}
    {is : List Nat} : ∀ {s : Store} {evs : List Event},
    sunsetLoop P key li slots is s evs = .ok (s', evs') → s'.bounds = s.bounds := by
  induction is with
  | nil => intro s evs h; cases h; rfl
  | cons i is ih =>
      intro s evs h
      simp only [sunsetLoop] at h
      split at h
      · cases h; rfl
      · split at h
        · cases h
        · rename_i hclean
          exact (ih h).trans (cleanupClass_bounds hclean)

theorem sunset_bounds {junk : Key} (h : sunset P l junk s = .ok (s', evs)) :
    s'.bounds = s.bounds ∧ (s.findLifetime l).isSome = true := by
  simp only [sunset] at h
  split at h
  · split at h
    · cases h
    · rename_i li hli
      refine ⟨?_, by rw [hli]; rfl⟩
      split at h
      · cases h
      · rename_i s₁ evs₁ hst
        simp only [sunsetStatic] at hst
        split at hst
        · cases hst
        · rename_i s₀ evs₀ hloop
          cases hst
          simp only [sunsetDynamic] at h
          split at h
          · cases h
          · rename_i s₂ evs₂ hdyn
            cases h
            have hclear := bounds_modifyLifetime (s := s₀) li (f := fun ls =>
              { ls with tlsClasses := clearSlots staticClasses ls.tlsClasses }) fun _ => ⟨rfl, rfl⟩
            refine (bounds_modifyLifetime li (by intro ls; exact ⟨rfl, rfl⟩)).trans ?_
            exact (sunsetLoop_bounds hdyn).trans (hclear.trans (sunsetLoop_bounds hloop))
  · cases h

theorem classGet_bounds {a : Ptr} {cls : Nat} (h : classGet s a = some (s', cls)) :
    s'.bounds = s.bounds := by
  obtain ⟨c, _, ⟨_, rfl⟩ | ⟨_, rfl⟩⟩ := classGet_spec h
  · rfl
  · rfl

/-! ## The lifetimes a store knows -/

theorem isSome_findLifetime (s : Store) (l : Lifetime) :
    (s.findLifetime l).isSome = s.tsLifetimes.any (sameStaticLifetime l) := by
  rw [Store.findLifetime, List.findIdx?_isSome]

theorem isSome_findLifetime_congr (h : sameLifetime l l' = true) :
    (s.findLifetime l).isSome = (s.findLifetime l').isSome := by
  rw [isSome_findLifetime, isSome_findLifetime]
  exact List.any_congr rfl fun ls => sameStaticLifetime_congr h ls

/-- Some sunrise of `l` is among the calls. -/
def Risen (l : Lifetime) (ks : List Call) : Prop :=
  ∃ l', Call.sunrise l' ∈ ks ∧ sameLifetime l l' = true

theorem risen_append {ks : List Call} {k : Call} :
    Risen l (ks ++ [k]) ↔ Risen l ks ∨ ∃ l', k = .sunrise l' ∧ sameLifetime l l' = true := by
  constructor
  · rintro ⟨l', hmem, hsame⟩
    rcases List.mem_append.mp hmem with hmem | hmem
    · exact Or.inl ⟨l', hmem, hsame⟩
    · exact Or.inr ⟨l', (List.mem_singleton.mp hmem).symm, hsame⟩
  · rintro (⟨l', hmem, hsame⟩ | ⟨l', rfl, hsame⟩)
    · exact ⟨l', List.mem_append_left _ hmem, hsame⟩
    · exact ⟨l', List.mem_append_right _ List.mem_cons_self, hsame⟩

/-- A call makes the store know the lifetime it begins, and no other. -/
theorem step_knows {k : Call} (h : Step P s k s') (l : Lifetime) :
    (s'.findLifetime l).isSome = true ↔
      (s.findLifetime l).isSome = true ∨ ∃ l', k = .sunrise l' ∧ sameLifetime l l' = true := by
  obtain ⟨evs, h⟩ := h
  cases k with
  | sunrise l' =>
      simp only [call, sunrise] at h
      split at h
      · split at h
        · rename_i i hi
          cases h
          refine ⟨Or.inl, fun hor => hor.elim id ?_⟩
          rintro ⟨l'', hk, hsame⟩
          cases hk
          rw [isSome_findLifetime_congr hsame, hi]
          rfl
        · cases h
          rw [isSome_findLifetime, isSome_findLifetime, List.any_append, Bool.or_eq_true]
          refine or_congr Iff.rfl ?_
          rw [List.any_cons, List.any_nil, Bool.or_false]
          constructor
          · intro hsame
            exact ⟨l', rfl, hsame⟩
          · rintro ⟨l'', hk, hsame⟩
            cases hk
            exact hsame
      · cases h
  | updateState a symbol pattern =>
      have hb : s'.bounds = s.bounds := by
        simp only [call, updateState] at h
        split at h
        · cases h
        · rename_i s₁ cls hget
          exact (updateClassState_bounds h).trans (classGet_bounds hget)
      rw [findLifetime_congr hb]
      exact ⟨Or.inl, fun hor => hor.elim id fun ⟨_, hk, _⟩ => by cases hk⟩
  | sunset l' junk =>
      rw [findLifetime_congr (sunset_bounds h).1]
      exact ⟨Or.inl, fun hor => hor.elim id fun ⟨_, hk, _⟩ => by cases hk⟩

/-- The store knows exactly the lifetimes that have begun at some time. -/
theorem knows_iff {classes instances : UInt32} {ks : List Call}
    (h : LibRun P classes instances ks s) :
    ∀ l, (s.findLifetime l).isSome = true ↔ Risen l ks := by
  refine h.track (P := fun ks s => ∀ l, (s.findLifetime l).isSome = true ↔ Risen l ks) ?_ ?_
  · intro l
    constructor
    · intro h; cases h
    · rintro ⟨_, hmem, _⟩; cases hmem
  · intro ks t u k ih hstep l
    rw [step_knows hstep l, ih l, risen_append]

/-! ## Events outside a lifetime -/

/-- Whether `l` has begun and not ended since. -/
def isOpen (l : Lifetime) (ks : List Call) : Bool :=
  ks.foldl (fun isOpen k =>
    match k with
    | .sunrise l' => isOpen || sameLifetime l l'
    | .sunset l' _ => isOpen && !sameLifetime l l'
    | .updateState .. => isOpen) false

/-- The event changes nothing in the store, but for the class slot that its
automaton may claim, and all that is reported is that it was ignored. -/
def Ignores (P : Program) (a : Ptr) (symbol : Nat) (pattern : Key) (s : Store) : Prop :=
  ∃ cls c, s.tsClasses[cls]? = some c ∧ (c.tcAutomaton = none ∨ c.tcAutomaton = some a) ∧
    updateState P a symbol pattern s =
      .ok ({ s with tsClasses := s.tsClasses.set cls { c with tcAutomaton := some a } },
        [.ignored cls symbol pattern])

theorem classGet_claims {a : Ptr} {cls : Nat} (h : classGet s a = some (s', cls)) :
    ∃ c, s.tsClasses[cls]? = some c ∧ (c.tcAutomaton = none ∨ c.tcAutomaton = some a) ∧
      s' = { s with tsClasses := s.tsClasses.set cls { c with tcAutomaton := some a } } := by
  obtain ⟨c, hc, ⟨ha, rfl⟩ | ⟨hn, rfl⟩⟩ := classGet_spec h
  · refine ⟨c, hc, Or.inr ha, ?_⟩
    obtain ⟨hlt, rfl⟩ := List.getElem?_eq_some_iff.mp hc
    rw [← ha, List.set_getElem_self hlt]
  · exact ⟨c, hc, Or.inl hn, rfl⟩

/-- The event of an automaton that has a class slot is ignored exactly when the
store does not know its lifetime. -/
theorem ignores_iff_unknown {a : Ptr} {symbol : Nat} {pattern : Key} :
    Ignores P a symbol pattern s ↔
      (classGet s a).isSome = true ∧ s.findLifetime (P.automaton a).taLifetime = none := by
  constructor
  · rintro ⟨cls, c, hc, hfree, hupd⟩
    simp only [updateState] at hupd
    split at hupd
    · cases hupd
    · rename_i s₁ cls₁ hget
      refine ⟨by rw [hget]; rfl, ?_⟩
      obtain ⟨c₁, hc₁, _, rfl⟩ := classGet_claims hget
      obtain ⟨c₂, a₂, hc₂, ha₂, hcase⟩ := updateClassState_spec hupd
      have hlt := (List.getElem?_eq_some_iff.mp hc₁).1
      rw [List.getElem?_set_self hlt] at hc₂
      cases hc₂
      cases ha₂
      rcases hcase with ⟨hf, _, _⟩ | ⟨li, ls, c', ls', _, _, hu, _⟩
      · exact hf
      · have := hu.ofUpdate _ (List.mem_singleton.mpr rfl)
        cases this
  · rintro ⟨hsome, hnone⟩
    obtain ⟨⟨s₁, cls⟩, hget⟩ := Option.isSome_iff_exists.mp hsome
    obtain ⟨c, hc, hfree, rfl⟩ := classGet_claims hget
    have hlt := (List.getElem?_eq_some_iff.mp hc).1
    refine ⟨cls, c, hc, hfree, ?_⟩
    simp only [updateState, hget, updateClassState, List.getElem?_set_self hlt]
    have hf : Store.findLifetime ⟨s.tsClasses.set cls { c with tcAutomaton := some a },
        s.tsLifetimes⟩ (P.automaton a).taLifetime = none := hnone
    rw [hf]

/-- Out-of-lifetime events: an event that comes while its lifetime is not open is
ignored exactly when, besides, that lifetime has never begun, and its automaton
has or finds a class slot. -/
theorem ignored_iff {classes instances : UInt32} {ks : List Call} {a : Ptr} {symbol : Nat}
    {pattern : Key} (hrun : LibRun P classes instances ks s) :
    (isOpen (P.automaton a).taLifetime ks = false → Ignores P a symbol pattern s) ↔
      (isOpen (P.automaton a).taLifetime ks = false →
        (classGet s a).isSome = true ∧ ¬ Risen (P.automaton a).taLifetime ks) := by
  have hknows := knows_iff hrun (P.automaton a).taLifetime
  rw [ignores_iff_unknown, ← hknows]
  refine imp_congr Iff.rfl (and_congr Iff.rfl ?_)
  rw [Option.not_isSome_iff_eq_none]

theorem ignored_iff_fresh : Ignores forkJoinProgram 7 1 (Key.of 5) (storeInit 2 4) :=
  have hrun : LibRun forkJoinProgram 2 4 [] (storeInit 2 4) := .nil
  (ignored_iff hrun).mpr (fun _ => ⟨by decide, fun ⟨_, hmem, _⟩ => by cases hmem⟩) rfl

/-- An event after the sunset starts the automaton again. -/
theorem event_after_sunset_starts : ∃ s,
    LibRun forkJoinProgram 2 4 [.sunrise callLifetime, .sunset callLifetime (Key.of 0)] s ∧
    isOpen forkJoin.taLifetime [.sunrise callLifetime, .sunset callLifetime (Key.of 0)] = false ∧
    ¬ Ignores forkJoinProgram 7 1 (Key.of 5) s := by
  have hexec : (Call.run forkJoinProgram (fun _ => True) (storeInit 2 4)
      [.sunrise callLifetime, .sunset callLifetime (Key.of 0)]).any (fun s =>
        (s.findLifetime callLifetime).isSome) = true := by decide
  obtain ⟨s, hs, hknown⟩ := (Option.any_eq_true _ _).mp hexec
  refine ⟨s, run_of_exec hs, by decide, fun hign => ?_⟩
  have hunknown := (ignores_iff_unknown.mp hign).2
  rw [show s.findLifetime callLifetime = none from hunknown] at hknown
  cases hknown

end Tesla.Runtime
