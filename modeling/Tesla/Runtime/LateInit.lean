/-
# `Tesla.Runtime.LateInit` — the search for an init transition

An event that finds its class empty is preceded by late initialisation: two
nested loops over the table of transitions look for one that is flagged INIT,
and an instance is made in its target state.  The inner loop is

    for (uint32_t j = 0; i < trans->length; i++)

so `j` stays 0, and it is the outer index that the inner loop moves.  What the
two loops do together is `found`: row `i` is looked at only if it is longer
than `i`, and then only its first transition.

    some transition is flagged    one instance iff the search finds exactly one
    none is                       no instance, and one EINVAL

`late_init_iff` says this of every class in which no instance is active,
which takes in the classes that JOINs have emptied without giving back the
slots: these are not taken for empty.
-/
import Tesla.Runtime.LazyInit

namespace Tesla.Runtime

open Lib

variable {P : Program} {s : Store} {autom : Automaton} {cls symbol li : Nat} {pattern : Key}
  {c : Class} {ls : LifetimeState} {a : Ptr}

/-! ## The search, without its inner loop -/

/-- What the search finds from row `i` on. -/
def foundFrom (autom : Automaton) : Nat → Nat → List Transition
  | 0, _ => []
  | fuel + 1, i =>
      match autom.taTransitions[i]? with
      | none => []
      | some [] => foundFrom autom fuel (i + 1)
      | some (t :: ts) =>
          if ts.length + 1 ≤ i then foundFrom autom fuel (i + 1)
          else if t.init then t :: foundFrom autom fuel (i + 1)
          -- the inner loop has moved `i` to the length of the row
          else foundFrom autom fuel (ts.length + 2)

/-- The transitions an instance is made for. -/
def found (autom : Automaton) : List Transition :=
  foundFrom autom autom.taAlphabetSize 0

theorem initInner_init {t : Transition} {ts : List Transition} (h : t.init = true) (n i : Nat) :
    initInner (t :: ts) n i = (i, if n = 0 then none else some t) := by
  cases n with
  | zero => rfl
  | succ n => simp [initInner, h]

theorem initInner_plain {t : Transition} {ts : List Transition} (h : t.init = false) (n : Nat) :
    ∀ i, initInner (t :: ts) n i = (i + n, none) := by
  induction n with
  | zero => intro i; rfl
  | succ n ih =>
      intro i
      simp only [initInner, List.getElem?_cons_zero, h, Bool.false_eq_true, if_false]
      rw [ih (i + 1)]
      congr 1
      omega

theorem initHitsFrom_eq {fuel : Nat} : ∀ i, initHitsFrom autom fuel i = foundFrom autom fuel i := by
  induction fuel with
  | zero => intro i; rfl
  | succ fuel ih =>
      intro i
      simp only [initHitsFrom, foundFrom]
      rcases autom.taTransitions[i]? with _ | _ | ⟨t, ts⟩
      · rfl
      · simp [initInner, ih]
      · by_cases hlen : ts.length + 1 ≤ i
        · have hn : (t :: ts).length - i = 0 := by
            rw [List.length_cons]
            omega
          simp only [hn, if_pos hlen, initInner]
          exact ih (i + 1)
        · have hn : (t :: ts).length - i ≠ 0 := by
            rw [List.length_cons]
            omega
          cases hinit : t.init with
          | true =>
              simp only [initInner_init hinit, if_neg hn, if_neg hlen]
              rw [if_pos hinit, ih]
          | false =>
              have hi : i + ((t :: ts).length - i) = ts.length + 1 := by
                rw [List.length_cons]
                omega
              simp only [initInner_plain hinit, hi, if_neg hlen]
              rw [if_neg (by simp [hinit]), ih]

theorem initHits_eq_found (autom : Automaton) : initHits autom = found autom :=
  initHitsFrom_eq 0

/-! ## One instance, or one error -/

/-- What late initialisation is for, for a class without active instances: one
instance without a name, in the target state of an init transition, before
anything else happens to the event but the registration of the class; or, for
an automaton without init transitions, the error and nothing else. -/
structure LateInitialises (P : Program) (s : Store) (a : Ptr) (cls symbol : Nat) (pattern : Key)
    (c : Class) : Prop where
  one : (∃ t, (P.automaton a).Has t ∧ t.init = true) → ∃ t c₁ slot,
    (P.automaton a).Has t ∧ t.init = true ∧
      c₁ = { c.setInstance slot ⟨Key.zero, t.toState⟩ with tcFree := c.tcFree - 1 } ∧
      c₁.tcInstances.filter instanceActive = [⟨Key.zero, t.toState⟩] ∧
      ∀ ls, prepare (P.automaton a) cls symbol c ls =
        (register ls cls).map fun ls' =>
          .go c₁ ls' [.newInstance cls slot ⟨Key.zero, t.toState⟩]
  none : (∀ t, (P.automaton a).Has t → t.init = false) →
    (∀ ls, prepare (P.automaton a) cls symbol c ls =
      .ok (.returned c [.err cls symbol .einval .noInitTransition])) ∧
    updateClassState P cls symbol pattern s =
      .ok (s, [.err cls symbol .einval .noInitTransition])

theorem limit_preserved (n : Nat) : Preserved P (fun c => c.tcLimit = n) (fun _ => True)
    (fun _ => True) (fun _ => True) where
  claim := fun h _ => h
  update := fun _ h _ _ => .intro
    (fun _ hr => ⟨(updateFound_spec hr).tcLimit.trans h, fun _ _ => trivial⟩) fun _ _ => trivial
  event := fun _ _ => trivial
  abort := fun _ _ => trivial

/-- `tc_limit` is what the store was asked for. -/
theorem limit_of_run {classes instances : UInt32} {ks : List Call}
    (h : LibRun P classes instances ks s) : ∀ c ∈ s.tsClasses, c.tcLimit = instances.toNat :=
  (limit_preserved instances.toNat).run (guardedRun_of_run h) (by
    rw [Class.fresh, Class.tcLimit, List.length_replicate])

theorem register_fresh (l : Lifetime) (cls : Nat) :
    ∃ ls', register (LifetimeState.fresh l) cls = .ok ls' := ⟨_, rfl⟩

/-- Without an init transition the search finds nothing, and the event is over. -/
theorem prepare_none (hnone : ∀ t, autom.Has t → t.init = false) (hempty : c.tcLimit = c.tcFree)
    (ls : LifetimeState) :
    prepare autom cls symbol c ls =
      .ok (.returned c [.err cls symbol .einval .noInitTransition]) := by
  have hhits : initHits autom = [] := by
    rw [List.eq_nil_iff_forall_not_mem]
    intro t ht
    obtain ⟨hhas, hinit⟩ := initHits_spec t ht
    rw [hnone t hhas] at hinit
    cases hinit
  have hlate : lateInit autom c = .ok ⟨c, none, none⟩ := by
    rw [lateInit, initOuter_eq]
    show createAll (initHits autom) c none = _
    rw [hhits]
    rfl
  simp only [prepare, if_pos hempty, hlate]

theorem updateClassState_returned {evs : List Event} (hc : s.tsClasses[cls]? = some c)
    (ha : c.tcAutomaton = some a) (hli : s.findLifetime (P.automaton a).taLifetime = some li)
    (hls : s.tsLifetimes[li]? = some ls)
    (hp : prepare (P.automaton a) cls symbol c ls = .ok (.returned c evs)) :
    updateClassState P cls symbol pattern s = .ok (s, evs) := by
  simp only [updateClassState, hc, ha, hli, hls, updateFound, hp]
  obtain ⟨hlt, rfl⟩ := List.getElem?_eq_some_iff.mp hc
  obtain ⟨hlt', rfl⟩ := List.getElem?_eq_some_iff.mp hls
  rw [List.set_getElem_self, List.set_getElem_self]

/-- Only one instance can have been made if only one is active. -/
theorem hits_of_one {l : Lifetime} {t : Transition} {c₁ : Class} {slot : Nat}
    (hactive : c.active = 0)
    (hone : c₁.tcInstances.filter instanceActive = [⟨Key.zero, t.toState⟩])
    (hp : prepare autom cls symbol c (LifetimeState.fresh l) =
      (register (LifetimeState.fresh l) cls).map fun ls' =>
        .go c₁ ls' [.newInstance cls slot ⟨Key.zero, t.toState⟩]) :
    c.tcLimit = c.tcFree ∧ (initHits autom).length = 1 := by
  obtain ⟨ls', hreg⟩ := register_fresh l cls
  rw [hreg] at hp
  cases prepare_spec hp with
  | init hempty hhits hg hst =>
      refine ⟨hempty, ?_⟩
      have hact := hg.active
      have hall : ((initHits autom).map initInstance).countP instanceActive =
          (initHits autom).length := by
        rw [List.countP_map, List.countP_eq_length.mpr]
        intro u hu
        exact active_of_state (hst u hu)
      have hcount : c₁.active = 1 := by
        rw [Class.active, List.countP_eq_length_filter, hone]
        rfl
      omega

/-- Late initialisation: of a class without active instances it makes what it
is meant to make exactly when the class is counted as empty and the search
finds one transition, if there is any to find. -/
theorem late_init_iff {classes instances : UInt32} {ks : List Call}
    (hrun : LibRun P classes instances ks s) (hpos : instances ≠ 0)
    (hc : s.tsClasses[cls]? = some c) (ha : c.tcAutomaton = some a)
    (hli : s.findLifetime (P.automaton a).taLifetime = some li)
    (hz : ∀ t, (P.automaton a).Has t → t.init = true → t.toState ≠ 0) (hempty : c.active = 0) :
    LateInitialises P s a cls symbol pattern c ↔
      c.tcFree = c.tcLimit ∧
        ((∃ t, (P.automaton a).Has t ∧ t.init = true) → (found (P.automaton a)).length = 1) := by
  have hmem := List.mem_of_getElem? hc
  have hwf := wf_of_run hrun c hmem
  have hlimit := limit_of_run hrun c hmem
  have hpos : 0 < c.tcLimit := by
    rw [hlimit, Nat.pos_iff_ne_zero]
    intro h
    exact hpos (UInt32.toNat_inj.mp h)
  obtain ⟨ls, hls⟩ := slot_of_find hli
  rw [← initHits_eq_found]
  constructor
  · intro h
    by_cases hany : ∃ t, (P.automaton a).Has t ∧ t.init = true
    · obtain ⟨t, c₁, slot, -, -, -, hone, hp⟩ := h.one hany
      obtain ⟨hfree, hlen⟩ := hits_of_one hempty hone
        (hp (LifetimeState.fresh (P.automaton a).taLifetime))
      exact ⟨hfree.symm, fun _ => hlen⟩
    · have hnone : ∀ t, (P.automaton a).Has t → t.init = false := fun t ht => by
        by_contra hinit
        exact hany ⟨t, ht, by simpa using hinit⟩
      refine ⟨?_, fun h => (hany h).elim⟩
      cases prepare_spec ((h.none hnone).1 ls) with
      | failed hfree => exact hfree.symm
  · intro ⟨hfree, hone⟩
    refine ⟨fun hany => ?_, fun hnone => ?_⟩
    · obtain ⟨u, hu⟩ := List.length_eq_one_iff.mp (hone hany)
      obtain ⟨hhas, hinit⟩ := initHits_spec u (hu ▸ List.mem_singleton.mpr rfl)
      have hstate := hz u hhas hinit
      obtain ⟨-, hfirst⟩ := instanceNew_first hwf hfree.symm hpos hstate
      obtain ⟨rest, hinsts, hrest⟩ := hfirst.instances
      refine ⟨u, c.withFirst u, 0, hhas, hinit, rfl, ?_, fun ls => ?_⟩
      · have hnil : rest.filter instanceActive = [] := by
          rw [List.filter_eq_nil_iff]
          intro x hx
          simp [hrest x hx]
        rw [hinsts, List.filter_cons, if_pos hfirst.active, hnil]
        rfl
      · rw [prepare_first hwf hfree.symm hpos hu hstate]
        cases register ls cls <;> rfl
    · have hp : ∀ ls, prepare (P.automaton a) cls symbol c ls = _ := prepare_none hnone hfree.symm
      exact ⟨hp, updateClassState_returned hc ha hli hls (hp ls)⟩

/-! ## Init transitions in the first and in the second row -/

/-- A class of automaton 7 before the first event of a lifetime that is open. -/
def claimedStore : Store where
  tsClasses := [Class.fresh 4, { Class.fresh 4 with tcAutomaton := some 7 }]
  tsLifetimes := [LifetimeState.fresh callLifetime]

theorem late_init_iff_forkJoin :
    LateInitialises forkJoinProgram claimedStore 7 1 1 (Key.of 5) claimedStore.tsClasses[1] := by
  have hrun : LibRun forkJoinProgram 2 4 [.updateState 7 1 (Key.of 5), .sunrise callLifetime]
      claimedStore := run_of_exec (by decide +kernel)
  have hstates : ∀ ts ∈ forkJoin.taTransitions, ∀ t ∈ ts, t.toState ≠ 0 := by decide
  have hli : claimedStore.findLifetime callLifetime = some 0 := rfl
  refine (late_init_iff hrun (by decide) rfl rfl hli ?_ (by decide)).mpr
    ⟨rfl, fun _ => by decide⟩
  intro t ⟨ts, hts, ht⟩ _
  exact hstates ts hts t ht

/-- The init transition stands in the second row; the first has one transition,
which is not flagged, and the inner loop goes past the second. -/
theorem second_row_not_found :
    LibRun ⟨fun _ => mustSeeSecond, false⟩ 2 4
      [.updateState 7 0 Key.zero, .sunrise callLifetime] claimedStore ∧
    (mustSeeSecond.Has ⟨0, 0, 1, 0, 2⟩ ∧ (⟨0, 0, 1, 0, 2⟩ : Transition).init = true) ∧
    ¬ LateInitialises ⟨fun _ => mustSeeSecond, false⟩ claimedStore 7 1 0 Key.zero
      claimedStore.tsClasses[1] := by
  have hinit : mustSeeSecond.Has ⟨0, 0, 1, 0, 2⟩ ∧
      (⟨0, 0, 1, 0, 2⟩ : Transition).init = true :=
    ⟨⟨[⟨0, 0, 1, 0, 2⟩], by decide, by decide⟩, by decide⟩
  refine ⟨run_of_exec (by decide +kernel), hinit, fun h => ?_⟩
  obtain ⟨t, c₁, slot, -, -, -, -, hp⟩ := h.one ⟨_, hinit⟩
  obtain ⟨ls', hreg⟩ := register_fresh callLifetime 1
  have hreturned : prepare mustSeeSecond 1 0 claimedStore.tsClasses[1]
      (LifetimeState.fresh callLifetime) =
      .ok (.returned claimedStore.tsClasses[1] [.err 1 0 .einval .noInitTransition]) := rfl
  have hgo := hp (LifetimeState.fresh callLifetime)
  rw [hreturned, hreg] at hgo
  cases hgo

end Tesla.Runtime
