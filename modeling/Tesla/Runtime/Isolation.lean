/-
# `Tesla.Runtime.Isolation` — an event about one object and the instances about another

An event whose key differs from an instance's name on a variable bound in
both is about another object.  Both name comparisons of `tesla_action` see
that (`keyMatches_of_disagrees`), so such an instance neither UPDATEs, FORKs
nor FAILs.  The JOIN case compares nothing:

    t leaves the instance's state and loses part of the name   ⇒  JOIN, whatever the event is about

`isolation_iff` says that this is the only way such an instance is touched,
and exactly when it happens.  That it is really lost needs an argument: the
slot is free after the JOIN, and a clone made by the same event may move in.
But a clone made by the event agrees with the event.
-/
import Tesla.Runtime.Accounting

namespace Tesla.Runtime

open Lib

variable {P : Program} {cls symbol : Nat} {pattern : Key} {c c' : Class} {d : Delivery}
  {inst : Instance} {evs evs' : List Event} {m i : Nat}

/-! ## One instance -/

/-- Of an instance it is not about, an event asks a JOIN or nothing. -/
theorem action_of_disagrees {event : Key} {trans : List Transition} {a : Action}
    (hdis : event.Disagrees inst.tiKey)
    (h : action inst event trans = .ok a) : a = .ignore ∨ ∃ t, a = .join t := by
  by_cases hact : instanceActive inst = true
  · have hspec := action_spec h hact
    -- the variable on which the two differ is bound in every pattern compared
    have hpat : ∀ {t : Transition}, t.fromMask = inst.tiKey.tkMask →
        (eventPattern event t).Disagrees inst.tiKey := by
      intro t hmask
      obtain ⟨b, he, hi, hne⟩ := hdis
      refine ⟨b, ?_, hi, hne⟩
      simp only [eventPattern, BitVec.getLsbD_and, he, hmask, hi, Bool.and_self]
    cases a with
    | ignore => exact Or.inl rfl
    | join t => exact Or.inr ⟨t, rfl⟩
    | fail =>
        obtain ⟨_, hm⟩ := hspec
        rw [keyMatches_of_disagrees hdis] at hm
        cases hm
    | fork t =>
        obtain ⟨hl, _, _, hm⟩ := hspec
        rw [keyMatches_of_disagrees (hpat hl.mask)] at hm
        cases hm
    | update t =>
        obtain ⟨hl, _, _, hm⟩ := hspec
        obtain ⟨b, he, _, hne⟩ := hpat hl.mask
        exact (hne ((keyMatches_iff.mp hm).2 b he)).elim
  · rw [action_inactive (by simpa using hact)] at h
    cases h
    exact Or.inl rfl

/-- The symbol takes part of the name away from an instance in this state. -/
def LosesName (inst : Instance) (trans : List Transition) : Prop :=
  ∃ t ∈ trans, t.fromState = inst.tiState ∧ t.Loses

instance (inst : Instance) (trans : List Transition) : Decidable (LosesName inst trans) :=
  inferInstanceAs (Decidable (∃ t ∈ trans, _))

theorem action_ignore_of_disagrees {event : Key} {trans : List Transition} {a : Action}
    (hdis : event.Disagrees inst.tiKey) (hact : instanceActive inst = true)
    (h : action inst event trans = .ok a) (hlose : ¬ LosesName inst trans) : a = .ignore := by
  rcases action_of_disagrees hdis h with rfl | ⟨t, rfl⟩
  · rfl
  · obtain ⟨hl, hloses, _⟩ := action_spec h hact
    exact (hlose ⟨t, hl.mem, hl.state, hloses⟩).elim

theorem action_join_of_disagrees {event : Key} {trans : List Transition} {a : Action}
    (hdis : event.Disagrees inst.tiKey) (hno : ∀ t ∈ trans, t.cleanup = false)
    (hact : instanceActive inst = true) (h : action inst event trans = .ok a)
    (hlose : LosesName inst trans) : ∃ t, a = .join t := by
  rcases action_of_disagrees hdis h with rfl | hj
  · obtain ⟨t, ht, hstate, hloses⟩ := hlose
    exact (action_spec h hact t ht hstate ⟨hloses, hno t ht⟩).elim
  · exact hj

/-- A copy made by an event is not about another object than the event. -/
theorem forkCopy_agrees {orig : Instance} {t : Transition}
    (h : actionOf d orig = .ok (.fork t)) :
    ¬ d.pattern.Disagrees (forkCopy d orig t).tiKey := by
  rintro ⟨b, hp, hx, hne⟩
  obtain ⟨hl, _, _, hm⟩ := action_spec h (active_of_action h (by simp))
  obtain ⟨hmask, horig, hnew⟩ := keyUnion_success (fork_agrees h)
  have hx' : (orig.tiKey.tkMask ||| (newName d.pattern t).tkMask).getLsbD b = true := by
    rw [← hmask]; exact hx
  rw [BitVec.getLsbD_or, Bool.or_eq_true] at hx'
  rcases hx' with ho | hn
  · have hpat : (eventPattern d.pattern t).tkMask.getLsbD b = true := by
      simp only [eventPattern, BitVec.getLsbD_and, hp, hl.mask, ho, Bool.and_self]
    exact hne (((keyMatches_iff.mp hm).2 b hpat).trans (horig b ho).symm)
  · exact hne (hnew b hn).symm

/-! ## One delivery -/

/-- A bad transition is reported for a slot whose instance FAILs, and for no
other. -/
theorem fail_of_badTransition {insts : List Instance} {slot sym : Nat} {x : Instance} :
    ∀ {k : Nat}, .badTransition cls slot x sym ∈ slotEvents d k insts →
      ∃ j inst, insts[j]? = some inst ∧ slot = k + j ∧ actionOf d inst = .ok .fail := by
  induction insts with
  | nil => intro k h; cases h
  | cons inst insts ih =>
      intro k h
      rcases List.mem_append.mp h with h | h
      · refine ⟨0, inst, rfl, ?_⟩
        rcases instEvents_cases h with ⟨hact, hev⟩ | ⟨t, _, hev | hev⟩
        · cases hev
          exact ⟨rfl, hact⟩
        · cases hev
        · cases hev
      · obtain ⟨j, u, hj, hslot, hact⟩ := ih h
        exact ⟨j + 1, u, by simpa using hj, by omega, hact⟩

/-- Every notification of a delivery to an initialised class is about a slot the
scan handled, or about a clone, or about the class. -/
theorem Delivered.fail_of_badTransition {slot sym : Nat} {x : Instance}
    (hd : Delivered d c [] m c' evs) (h : .badTransition cls slot x sym ∈ evs) :
    ∃ inst, slot < m ∧ c.tcInstances[slot]? = some inst ∧ actionOf d inst = .ok .fail := by
  have hslots : .badTransition cls slot x sym ∈ slotEvents d 0 (c.tcInstances.take m) := by
    cases hd with
    | full =>
        rw [List.nil_append] at h
        rcases List.mem_append.mp h with h | h
        · exact h
        · cases List.mem_singleton.mp h
    | cloned _ _ _ _ hquiet =>
        rw [List.nil_append] at h
        rcases List.mem_append.mp h with h | h
        · exact h
        · exact absurd (hquiet _ h) (by simp [Event.ofClone])
    | done _ _ hquiet =>
        rw [List.nil_append] at h
        rcases List.mem_append.mp h with h | h
        · exact h
        · rcases List.mem_append.mp h with h | h
          · exact absurd (hquiet _ h) (by simp [Event.ofClone])
          · split at h
            · cases h
            · cases List.mem_singleton.mp h
  obtain ⟨j, inst, hj, hslot, hact⟩ := Runtime.fail_of_badTransition hslots
  rw [Nat.zero_add] at hslot
  subst hslot
  rw [List.getElem?_take] at hj
  split at hj
  · rename_i hlt
    exact ⟨inst, hlt, hj, hact⟩
  · cases hj

theorem cleansUp_of_noCleanup (hno : ∀ t ∈ d.trans, t.cleanup = false) (inst : Instance) :
    cleansUp d inst = false := by
  simp only [cleansUp]
  split
  · rename_i t ht
    exact hno t (action_spec ht (active_of_action ht (by simp))).1.mem
  · rename_i t ht
    exact hno t (action_spec ht (active_of_action ht (by simp))).1.mem
  · rename_i t ht
    exact hno t (action_spec ht (active_of_action ht (by simp))).1.mem
  · rfl

/-- Without cleanup, a class after the event is the scanned class, grown by some
of the copies asked for. -/
theorem Delivered.grown_of_noCleanup (hno : ∀ t ∈ d.trans, t.cleanup = false)
    (hd : Delivered d c evs m c' evs') :
    ∃ n, Grown (scanned d c m) ((forkCopies d (c.tcInstances.take m)).take n) c' := by
  cases hd with
  | full => exact ⟨0, .nil _⟩
  | @cloned _ n _ _ hg => exact ⟨n, hg⟩
  | done _ hg =>
      have hnone : (c.tcInstances.take m).any (cleansUp d) = false := by
        rw [List.any_eq_false]
        intro inst _
        simp [cleansUp_of_noCleanup hno]
      rw [hnone]
      refine ⟨(forkCopies d (c.tcInstances.take m)).length, ?_⟩
      rw [List.take_length]
      exact hg

/-- An active instance that IGNOREs the event stays. -/
theorem Delivered.keeps_of_ignore (hno : ∀ t ∈ d.trans, t.cleanup = false)
    (hd : Delivered d c evs m c' evs') (hi : c.tcInstances[i]? = some inst)
    (hact : instanceActive inst = true) (hig : i < m → actionOf d inst = .ok .ignore) :
    c'.tcInstances[i]? = some inst := by
  obtain ⟨n, hg⟩ := hd.grown_of_noCleanup hno
  refine hg.frame ?_ hact
  rw [scanned_slot hi]
  split
  · rename_i hlt
    rw [outcome, hig hlt]
  · rfl

/-- An instance about another object that JOINs is gone. -/
theorem Delivered.loses_of_join (hno : ∀ t ∈ d.trans, t.cleanup = false)
    (hd : Delivered d c evs m c' evs') (hi : c.tcInstances[i]? = some inst)
    (hact : instanceActive inst = true) (hdis : d.pattern.Disagrees inst.tiKey) {t : Transition}
    (hlt : i < m) (hj : actionOf d inst = .ok (.join t)) :
    c'.tcInstances[i]? ≠ some inst := by
  intro hi'
  obtain ⟨n, hg⟩ := hd.grown_of_noCleanup hno
  rcases hg.slot hi' with h | h
  · have hzero : outcome d inst = Instance.zero := by simp only [outcome, hj]
    rw [scanned_slot hi, if_pos hlt, hzero] at h
    cases h
    rw [instanceActive_zero] at hact
    cases hact
  · obtain ⟨orig, _, horig⟩ := List.mem_filterMap.mp (List.mem_of_mem_take h)
    obtain ⟨u, hu, rfl⟩ := forkCopy?_eq_some.mp horig
    exact forkCopy_agrees hu hdis

/-- The scan handles every active instance it can reach. -/
theorem Delivered.handles_of_reaches (hwf : c.WF) (hd : Delivered d c evs m c' evs')
    (hi : c.tcInstances[i]? = some inst) (hact : instanceActive inst = true)
    (hreach : Reaches d c i) (hnf : isFork d inst = false) : i < m := by
  by_contra hge
  have hle : m ≤ i := Nat.not_lt.mp hge
  have hdrop : inst ∈ c.tcInstances.drop m := by
    refine List.mem_iff_getElem?.mpr ⟨i - m, ?_⟩
    rw [List.getElem?_drop, Nat.add_sub_cancel' hle]
    exact hi
  have hstop := fun hs => inactive_of_stop (d := d) hwf hreach.1 hs inst hdrop
  cases hd with
  | @full u hslot hfork hroom =>
      -- slot `i` is not that of the fork that found no room, and not behind it either
      rcases (le_of_reaches hslot hfork hroom hreach).lt_or_eq with hlt | rfl
      · omega
      · rw [hi] at hslot
        cases hslot
        rw [hnf] at hfork
        cases hfork
  | cloned stop => rw [hstop stop] at hact; cases hact
  | done stop => rw [hstop stop] at hact; cases hact

/-! ## The call -/

/-- After the call slot `i` of class `cls` still holds `inst`, and no bad
transition was reported for it. -/
def Untouched (cls i : Nat) (inst : Instance) (s : Store) (evs : List Event) : Prop :=
  (∃ c, s.tsClasses[cls]? = some c ∧ c.tcInstances[i]? = some inst) ∧
    ∀ x sym, .badTransition cls i x sym ∉ evs

/-- Instance isolation: an active instance that an event without cleanup is not
about is left alone exactly when the event is ignored, or the scan ends before
the instance's slot, or no transition of the symbol out of the instance's state
drops part of its name. -/
theorem isolation_iff {classes instances : UInt32} {ks : List Call} {s s' : Store} {a : Ptr}
    {ts : List Transition} (hrun : LibRun P classes instances ks s)
    (hc : s.tsClasses[cls]? = some c) (ha : c.tcAutomaton = some a)
    (hts : (P.automaton a).taTransitions[symbol]? = some ts)
    (hno : ∀ t ∈ ts, t.cleanup = false) (hi : c.tcInstances[i]? = some inst)
    (hact : instanceActive inst = true) (hdis : pattern.Disagrees inst.tiKey)
    (hok : updateClassState P cls symbol pattern s = .ok (s', evs)) :
    Untouched cls i inst s' evs ↔
      ¬ ((s.findLifetime (P.automaton a).taLifetime).isSome = true ∧
        Reaches (delivery P cls symbol pattern ts c.tcFree) c i ∧ LosesName inst ts) := by
  have hwf := wf_of_run hrun c (List.mem_of_getElem? hc)
  have hlt := (List.getElem?_eq_some_iff.mp hc).1
  obtain ⟨c₀, a₀, hc₀, ha₀, hcase⟩ := updateClassState_spec hok
  rw [hc] at hc₀
  cases hc₀
  rw [ha] at ha₀
  cases ha₀
  rcases hcase with ⟨hf, rfl, rfl⟩ | ⟨li, ls, c', ls', hf, _, hu, rfl⟩
  · have hun : Untouched cls i inst s' [.ignored cls symbol pattern] := by
      refine ⟨⟨c, hc, hi⟩, fun x sym h => ?_⟩
      cases List.mem_singleton.mp h
    simp [hf, hun]
  · -- the class has an active instance, so nothing is initialised
    have hready : c.tcLimit ≠ c.tcFree := by
      intro hempty
      have := hwf.inactive_of_empty hempty inst (List.mem_of_getElem? hi)
      rw [hact] at this
      cases this
    cases hu with
    | returned hp => cases hp with
      | failed hempty => exact (hready hempty).elim
    | @delivered _ _ _ _ _ _ m hp hts' hreach hd => cases hp with
      | init hempty => exact (hready hempty).elim
      | ready =>
          rw [hts] at hts'
          cases hts'
          have hset : (s.tsClasses.set cls c')[cls]? = some c' := List.getElem?_set_self hlt
          have hnf : isFork (delivery P cls symbol pattern ts c.tcFree) inst = false := by
            simp only [isFork]
            split
            · rename_i t ht
              rcases action_of_disagrees hdis ht with h | ⟨u, h⟩ <;> cases h
            · rfl
          have hacts : i < m → ∃ b, action inst pattern ts = .ok b := fun him =>
            hreach.acts inst (List.mem_of_getElem? ((List.getElem?_take_of_lt him).trans hi))
          constructor
          · rintro ⟨⟨c'', hc'', hi''⟩, _⟩ ⟨_, hr, hlose⟩
            rw [hset] at hc''
            cases hc''
            have him := hd.handles_of_reaches hwf hi hact hr hnf
            obtain ⟨b, hb⟩ := hacts him
            obtain ⟨t, rfl⟩ := action_join_of_disagrees hdis hno hact hb hlose
            exact hd.loses_of_join hno hi hact hdis him hb hi''
          · intro hcond
            have hig : i < m → action inst pattern ts = .ok .ignore := by
              intro him
              obtain ⟨b, hb⟩ := hacts him
              have hlose : ¬ LosesName inst ts := fun hlose =>
                hcond ⟨by rw [hf]; rfl, hreach.reaches hwf him, hlose⟩
              rw [action_ignore_of_disagrees hdis hact hb hlose] at hb
              exact hb
            refine ⟨⟨c', hset, hd.keeps_of_ignore hno hi hact hig⟩, fun x sym h => ?_⟩
            obtain ⟨u, him, hu, hfail⟩ := hd.fail_of_badTransition h
            rw [hi] at hu
            cases hu
            have hboth := (hig him).symm.trans hfail
            cases hboth

/-! ## Two objects -/

/-- The binding event, sent again for object 5, does not touch the instance about
object 7. -/
theorem isolation_iff_twoObjects : ∃ s' evs,
    updateClassState forkJoinProgram 1 1 (Key.of 5) (twoObjects 5 7) = .ok (s', evs) ∧
      Untouched 1 2 ⟨Key.of 7, 2⟩ s' evs := by
  have hok : (updateClassState forkJoinProgram 1 1 (Key.of 5) (twoObjects 5 7)).toOption.isSome =
      true := by decide
  obtain ⟨⟨s', evs⟩, hr⟩ := Option.isSome_iff_exists.mp hok
  have hr' := ok_of_toOption hr
  refine ⟨s', evs, hr', ?_⟩
  exact (isolation_iff (c := (twoObjects 5 7).tsClasses[1]) twoObjects_reached rfl rfl rfl (by decide)
    rfl (by decide) (by decide) hr').mpr (by decide)

/-- The forgetting event, sent for object 5, destroys the instance about object
7. -/
theorem join_forgets_other_object : ∃ c s' evs,
    LibRun forkJoinProgram 2 4
      [.sunrise callLifetime, .updateState 7 1 (Key.of 5), .updateState 7 1 (Key.of 7)]
      (twoObjects 5 7) ∧
    (twoObjects 5 7).tsClasses[1]? = some c ∧ c.tcAutomaton = some 7 ∧
    (∀ ts, forkJoin.taTransitions[2]? = some ts → ∀ t ∈ ts, t.cleanup = false) ∧
    c.tcInstances[2]? = some ⟨Key.of 7, 2⟩ ∧ instanceActive ⟨Key.of 7, 2⟩ = true ∧
    (Key.of 5).Disagrees (Key.of 7) ∧
    updateClassState forkJoinProgram 1 2 (Key.of 5) (twoObjects 5 7) = .ok (s', evs) ∧
    ¬ Untouched 1 2 ⟨Key.of 7, 2⟩ s' evs := by
  have hok : ((updateClassState forkJoinProgram 1 2 (Key.of 5) (twoObjects 5 7)).toOption.any
      fun r => decide (∀ c ∈ r.1.tsClasses[1]?, c.tcInstances[2]? = some Instance.zero)) =
      true := by decide
  obtain ⟨⟨s', evs⟩, hr, hcheck⟩ := (Option.any_eq_true _ _).mp hok
  refine ⟨_, s', evs, twoObjects_reached, rfl, rfl, ?_, rfl, by decide, by decide,
    ok_of_toOption hr, ?_⟩
  · intro ts hts
    cases hts
    decide
  · rintro ⟨⟨c, hc, hi⟩, _⟩
    rw [of_decide_eq_true hcheck c hc] at hi
    exact absurd hi (by decide)

end Tesla.Runtime
