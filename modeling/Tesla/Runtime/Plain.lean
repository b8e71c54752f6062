/-
# `Tesla.Runtime.Plain` — automata without variables, one event at a time

The class of an automaton that binds no variables never has more than one instance, and that
one has no name.  What an event does to it is then a matter of the automaton's table alone:

    the state has a transition on the symbol        taken; a cleanup empties the class
    it has none                                     the event is out of turn, and nothing moves
    the key has a free variable                     the event is about no instance

The failures that an update reports, here or elsewhere, are those of its own class
(`Updated.about`).
-/
import Tesla.Runtime.Chain
import Tesla.Runtime.LateInit

namespace Tesla.Runtime

open Lib

/-! ## Plain automata -/

/-- An automaton that binds no variables, and leaves a state by one transition at most on a
symbol.  `u` is the init transition, and late initialisation finds it. -/
structure Automaton.Plain (autom : Automaton) (u : Transition) : Prop where
  from_mask : ∀ t, autom.Has t → t.fromMask = 0
  to_mask : ∀ t, autom.Has t → t.toMask = 0
  one : ∀ ts ∈ autom.taTransitions, (ts.map Transition.fromState).Nodup
  target : autom.NoZeroTarget
  init : FindsInit autom u

/-- The transition that leaves a state on a symbol. -/
def Automaton.next (autom : Automaton) (q symbol : Nat) : Option Transition :=
  (autom.onSymbol symbol).find? fun t => t.fromState = q

/-- What an event does to an instance without a name: the state after it, if there is still an
instance, and the failures reported.  A key with a free variable is about no such instance. -/
def Automaton.hear (autom : Automaton) (cls symbol : Nat) (pattern : Key) (q : Nat) :
    Option Nat × List Event :=
  if pattern.tkFreemask = 0 then
    match autom.next q symbol with
    | some t => (if t.cleanup then none else some t.toState, [])
    | none => (some q,
        [.badTransition cls 0 ⟨Key.zero, q⟩ symbol, .noInstance cls symbol pattern])
  else (some q, [.noInstance cls symbol pattern])

section Plain
variable {autom : Automaton} {u t : Transition} {ts : List Transition} {q cls symbol : Nat}
  {pattern : Key} {evs evs' : List Event} {c c' : Class} {ls ls' : LifetimeState}
  {inst : Option Nat} {P : Program} {d : Delivery}

theorem Automaton.next_eq (hts : autom.taTransitions[symbol]? = some ts) :
    autom.next q symbol = ts.find? fun t => t.fromState = q := by
  rw [next, onSymbol, hts]
  rfl

theorem keyMatches_zero (hmask : pattern.tkMask = 0) :
    keyMatches pattern Key.zero = true ↔ pattern.tkFreemask = 0 := by
  rw [keyMatches_iff, hmask]
  constructor
  · rintro ⟨hsub, _⟩
    have hsub := (subMask_or.mp hsub).2
    rw [subMask_iff] at hsub
    refine BitVec.eq_of_getLsbD_eq fun i _ => ?_
    cases hi : pattern.tkFreemask.getLsbD i with
    | false => simp
    | true =>
      have := hsub i hi
      simp [Key.zero] at this
  · intro hfree
    rw [hfree]
    exact ⟨by simp [subMask_iff], fun i hi => by simp at hi⟩

/-- What `tesla_action` says of the instance in a state. -/
def Automaton.react (autom : Automaton) (symbol : Nat) (pattern : Key) (q : Nat) : Action :=
  if pattern.tkFreemask = 0 then
    match autom.next q symbol with
    | some t => .update t
    | none => .fail
  else .ignore

/-- An event that binds nothing is about an instance without a name if no variable is free in it. -/
theorem compatible_zero (hmask : pattern.tkMask = 0) :
    Compatible pattern ⟨Key.zero, q⟩ ↔ pattern.tkFreemask = 0 := by
  have hmatch : keyMatches pattern Key.zero = true ↔ _ :=
    @keyMatches_iff_compatible ⟨Key.zero, q⟩ pattern
  rw [← keyMatches_zero hmask, hmatch, hmask]
  exact ⟨fun h => ⟨by simp [subMask_iff], h⟩, And.right⟩

theorem Automaton.Plain.action (h : autom.Plain u) (hts : autom.taTransitions[symbol]? = some ts)
    (hne : ts ≠ []) (hq : q ≠ 0) (hmask : pattern.tkMask = 0) :
    action ⟨Key.zero, q⟩ pattern ts = .ok (autom.react symbol pattern q) := by
  have hmem := List.mem_of_getElem? hts
  have hhas : ∀ t ∈ ts, autom.Has t := fun t ht => ⟨ts, hmem, ht⟩
  have hactive : instanceActive ⟨Key.zero, q⟩ = true := instanceActive_iff.mpr (.inl hq)
  rw [Runtime.action, if_pos hactive, react, next_eq hts]
  cases hfind : ts.find? (fun t => decide (t.fromState = q)) with
  | some t =>
    have ht := List.mem_of_find?_eq_some hfind
    have hstate : t.fromState = q := by simpa using List.find?_some hfind
    have hkeep : ¬ (t.Loses ∧ t.cleanup = false) := by
      rw [Transition.Loses, h.from_mask t (hhas t ht)]
      exact fun hlose => hlose.1 (by simp [subMask_iff])
    have hgain : SubMask t.toMask t.fromMask := by
      rw [h.to_mask t (hhas t ht)]
      simp [subMask_iff]
    have hloop := @actionLoop_here ⟨Key.zero, q⟩ pattern ts t true (h.one ts hmem) ht hstate
      (h.from_mask t (hhas t ht)) fun hig => absurd hig Bool.true_eq_false.mp
    rw [hloop, decision, if_neg hkeep, if_pos hgain]
    simp only [compatible_zero hmask]
  | none =>
    have hnone : ∀ t ∈ ts, t.fromState ≠ q := fun t ht heq =>
      List.find?_eq_none.mp hfind t ht (decide_eq_true heq)
    rw [actionLoop_elsewhere hnone]
    simp only [keyMatches_zero hmask, hne, ne_eq, not_false_eq_true, true_and]
    split <;> simp_all

/-! ## One event -/

/-- The class has no instance, or one without a name, in its first slot. -/
def Class.Holds (c : Class) : Option Nat → Prop
  | none => c.tcLimit = c.tcFree
  | some q => q ≠ 0 ∧ c.First ⟨Key.zero, q⟩

theorem Class.First.move (h : c.First ⟨Key.zero, q⟩) {q' : Nat} (hq' : q' ≠ 0) :
    Class.Holds { c with tcInstances := c.tcInstances.set 0 ⟨Key.zero, q'⟩ } (some q') := by
  obtain ⟨rest, hinsts, hrest⟩ := h.instances
  refine ⟨hq', ⟨rest, ?_, hrest⟩, instanceActive_iff.mpr (.inl hq'), ?_⟩
  · rw [hinsts]
    rfl
  · show c.tcFree + 1 = (c.tcInstances.set 0 ⟨Key.zero, q'⟩).length
    rw [List.length_set]
    exact h.free

theorem Class.holds_reset (c : Class) : (classReset c).Holds none := classReset_tcLimit c

/-- An event for the one instance of a plain automaton. -/
theorem Automaton.Plain.deliver (h : autom.Plain u) (hts : autom.taTransitions[symbol]? = some ts)
    (hne : ts ≠ []) (hmask : pattern.tkMask = 0) (hholds : c.Holds (some q)) (room : Nat)
    (hok : deliver (delivery P cls symbol pattern ts room) c evs = .ok (c', evs')) :
    c'.Holds (autom.hear cls symbol pattern q).1 ∧
      failures evs' = failures evs ++ (autom.hear cls symbol pattern q).2 := by
  obtain ⟨hq, hfirst⟩ := hholds
  set d := delivery P cls symbol pattern ts room with hd
  have hact : actionOf d ⟨Key.zero, q⟩ = .ok (autom.react symbol pattern q) :=
    h.action hts hne hq hmask
  have hscan : scanLoop d (List.range c.tcLimit) (Scan.start c evs) = _ := hfirst.scan
  have hmem := List.mem_of_getElem? hts
  rw [hact, react] at hscan
  rw [hear]
  by_cases hzero : pattern.tkFreemask = 0
  · rw [if_pos hzero] at hscan ⊢
    cases hnext : autom.next q symbol with
    | none =>
      rw [hnext] at hscan
      rw [deliver_of_scan hscan rfl rfl] at hok
      obtain ⟨rfl, rfl⟩ := Prod.mk.inj (Except.ok.inj hok)
      exact ⟨⟨hq, hfirst⟩, by simp [Scan.last, Scan.start, failures, Event.isFailure, hd, delivery]⟩
    | some t =>
      rw [hnext] at hscan
      rw [deliver_of_scan hscan rfl rfl] at hok
      obtain ⟨rfl, rfl⟩ := Prod.mk.inj (Except.ok.inj hok)
      rw [next_eq hts] at hnext
      have ht := List.mem_of_find?_eq_some hnext
      refine ⟨?_, ?_⟩
      · simp only [Scan.last, Scan.start, Bool.false_or]
        split
        · exact Class.holds_reset _
        · exact hfirst.move (h.target ts hmem t ht)
      · simp only [Scan.last, Scan.start]
        cases d.haveTransitions <;> cases t.cleanup <;> simp [failures, Event.isFailure]
  · rw [if_neg hzero] at hscan ⊢
    rw [deliver_of_scan hscan rfl rfl] at hok
    obtain ⟨rfl, rfl⟩ := Prod.mk.inj (Except.ok.inj hok)
    exact ⟨⟨hq, hfirst⟩, by simp [Scan.start, failures, Event.isFailure, hd, delivery]⟩

/-- An event for the class: the first one finds the state that the init transition leads to, and
registers the class. -/
theorem Automaton.Plain.updateFound (h : autom.Plain u) (hwf : c.WF) (hpos : 0 < c.tcLimit)
    (hmask : pattern.tkMask = 0) (hholds : c.Holds inst)
    (hok : updateFound P autom cls symbol pattern c ls = .ok (c', ls', evs)) :
    c'.Holds (autom.hear cls symbol pattern (inst.getD u.toState)).1 ∧
      failures evs = (autom.hear cls symbol pattern (inst.getD u.toState)).2 ∧
      if inst.isSome then ls' = ls else register ls cls = .ok ls' := by
  have hend : ∀ {c₁ ls₁ evs₁ q}, prepare autom cls symbol c ls = .ok (.go c₁ ls₁ evs₁) →
      c₁.Holds (some q) → failures evs₁ = [] →
      c'.Holds (autom.hear cls symbol pattern q).1 ∧
        failures evs = (autom.hear cls symbol pattern q).2 ∧ ls' = ls₁ := by
    intro c₁ ls₁ evs₁ q hprep hone hquiet
    simp only [Runtime.updateFound, hprep] at hok
    split at hok
    · cases hok
    · next ts hts =>
      split at hok
      · cases hok
      · next hlen =>
        split at hok
        · cases hok
        · split at hok
          · cases hok
          · next c₂ evs₂ hdeliver =>
            cases hok
            have hne : ts ≠ [] := fun hnil => hlen (by rw [hnil]; rfl)
            obtain ⟨hafter, hfail⟩ := h.deliver hts hne hmask hone _ hdeliver
            rw [hquiet, List.nil_append] at hfail
            exact ⟨hafter, hfail, rfl⟩
  cases inst with
  | some q =>
    have hready : prepare autom cls symbol c ls = .ok (.go c ls []) := by
      have hfree := hholds.2.free
      rw [prepare, if_neg (by omega)]
    obtain ⟨hafter, hfail, hsame⟩ := hend hready hholds rfl
    exact ⟨hafter, hfail, hsame⟩
  | none =>
    have hprep : prepare autom cls symbol c ls = _ :=
      prepare_first hwf hholds hpos h.init.hits h.init.state
    cases hreg : register ls cls with
    | error e =>
      rw [hreg] at hprep
      simp only [Runtime.updateFound, hprep] at hok
      cases hok
    | ok ls₁ =>
      rw [hreg] at hprep
      have hone : (c.withFirst u).Holds (some u.toState) :=
        ⟨h.init.state, (instanceNew_first hwf hholds hpos h.init.state).2⟩
      obtain ⟨hafter, hfail, rfl⟩ := hend hprep hone rfl
      exact ⟨hafter, hfail, rfl⟩

end Plain

end Tesla.Runtime
