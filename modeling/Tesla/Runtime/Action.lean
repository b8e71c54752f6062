/-
# `Tesla.Runtime.Action` — what one event asks of one instance: `tesla_action`

The event is a symbol, that is a list of transitions, and a key.  For an
active instance `tesla_action` walks the list:

    t leaves the instance's state and loses part of the name, t not cleanup   JOIN t
    …, t adds nothing to the name, masked names match                         UPDATE t
    …, t adds to the name, names match                                        FORK t
    …, otherwise                                                              next
    t leaves another state                                                    next, but if the event
                                                                              matches: FAIL at the end

The two name comparisons are against the event masked by `from_mask`; the
JOIN line has none.  The trigger, an out-parameter of the source that is set
exactly for the first three results, is carried by the result.
-/
import Tesla.Runtime.Class

namespace Tesla.Runtime

/-- `enum tesla_action_t`, with `*trigger`. -/
inductive Action
  | update (t : Transition)
  | fork (t : Transition)
  | join (t : Transition)
  | ignore
  | fail
  deriving DecidableEq

/-- The event's key without the parts extraneous to `t`. -/
def eventPattern (event : Key) (t : Transition) : Key :=
  { event with tkMask := event.tkMask &&& t.fromMask }

/-- The instance's name, masked by what the pattern speaks about. -/
def maskedName (pattern : Key) (inst : Instance) : Key :=
  { inst.tiKey with
    tkMask := inst.tiKey.tkMask &&& (pattern.tkMask ||| pattern.tkFreemask) }

/-- The loop of `tesla_action`; `ignore` is the flag of that name. -/
def actionLoop (inst : Instance) (event : Key) : List Transition → Bool → Except Abort Action
  | [], ignore => .ok (if ignore then .ignore else .fail)
  | t :: ts, ignore =>
      if t.fromState = inst.tiState then
        if inst.tiKey.tkMask ≠ t.fromMask then .error .instanceMask
        -- losing information implies a join (except during cleanup)
        else if t.Loses ∧ t.cleanup = false then .ok (.join t)
        else if SubMask t.toMask t.fromMask then
          if keyMatches (eventPattern event t) (maskedName (eventPattern event t) inst) then
            .ok (.update t)
          else actionLoop inst event ts ignore
        else if keyMatches (eventPattern event t) inst.tiKey then .ok (.fork t)
        else actionLoop inst event ts ignore
      -- some transition must match an instance the event is about
      else if keyMatches event inst.tiKey then actionLoop inst event ts false
      else actionLoop inst event ts ignore

/-- `tesla_action`. -/
def action (inst : Instance) (event : Key) (trans : List Transition) : Except Abort Action :=
  if instanceActive inst then actionLoop inst event trans true else .ok .ignore

/-! ## Reading a result back -/

/-- `t` is a transition of the list that leaves the instance's state, under the
instance's mask. -/
structure Leaves (inst : Instance) (trans : List Transition) (t : Transition) : Prop where
  mem : t ∈ trans
  state : t.fromState = inst.tiState
  mask : t.fromMask = inst.tiKey.tkMask

/-- What each result of `tesla_action` says about the instance and the event. -/
def ActionSpec (inst : Instance) (event : Key) (trans : List Transition) : Action → Prop
  | .join t => Leaves inst trans t ∧ t.Loses ∧ t.cleanup = false
  | .update t => Leaves inst trans t ∧ (t.Loses → t.cleanup = true) ∧ ¬ t.Gains ∧
      keyMatches (eventPattern event t) (maskedName (eventPattern event t) inst) = true
  | .fork t => Leaves inst trans t ∧ (t.Loses → t.cleanup = true) ∧ t.Gains ∧
      keyMatches (eventPattern event t) inst.tiKey = true
  | .ignore => ∀ t ∈ trans, t.fromState = inst.tiState → ¬ (t.Loses ∧ t.cleanup = false)
  | .fail => (∀ t ∈ trans, t.fromState = inst.tiState → ¬ (t.Loses ∧ t.cleanup = false)) ∧
      keyMatches event inst.tiKey = true

theorem ActionSpec.tail {inst : Instance} {event : Key} {t : Transition}
    {ts : List Transition} {a : Action} (h : ActionSpec inst event ts a)
    (ht : t.fromState = inst.tiState → ¬ (t.Loses ∧ t.cleanup = false)) :
    ActionSpec inst event (t :: ts) a := by
  have hl : ∀ {u}, Leaves inst ts u → Leaves inst (t :: ts) u := fun hu =>
    ⟨List.mem_cons_of_mem _ hu.mem, hu.state, hu.mask⟩
  cases a with
  | join u => exact ⟨hl h.1, h.2⟩
  | update u => exact ⟨hl h.1, h.2⟩
  | fork u => exact ⟨hl h.1, h.2⟩
  | ignore => exact List.forall_mem_cons.mpr ⟨ht, h⟩
  | fail => exact ⟨List.forall_mem_cons.mpr ⟨ht, h.1⟩, h.2⟩

theorem actionLoop_spec {inst : Instance} {event : Key} {trans : List Transition}
    {ig : Bool} {a : Action} (hig : ig = false → keyMatches event inst.tiKey = true)
    (h : actionLoop inst event trans ig = .ok a) : ActionSpec inst event trans a := by
  induction trans generalizing ig with
  | nil =>
      simp only [actionLoop, Except.ok.injEq] at h
      subst h
      cases ig with
      | true => intro t ht; cases ht
      | false => exact ⟨fun t ht => (by cases ht), hig rfl⟩
  | cons t ts ih =>
      simp only [actionLoop] at h
      split at h
      · rename_i hst
        split at h
        · cases h
        · rename_i hmask
          have hleave : Leaves inst (t :: ts) t :=
            ⟨List.mem_cons_self, hst, (not_not.mp hmask).symm⟩
          split at h
          · rename_i hj; cases h; exact ⟨hleave, hj⟩
          · rename_i hj
            have hlc : t.Loses → t.cleanup = true := fun hl => by
              by_contra hc; exact hj ⟨hl, by simpa using hc⟩
            split at h
            · rename_i hsub
              split at h
              · rename_i hm; cases h; exact ⟨hleave, hlc, not_not.mpr hsub, hm⟩
              · exact (ih hig h).tail fun _ => hj
            · rename_i hsub
              split at h
              · rename_i hm; cases h; exact ⟨hleave, hlc, hsub, hm⟩
              · exact (ih hig h).tail fun _ => hj
      · rename_i hst
        split at h
        · rename_i hm; exact (ih (fun _ => hm) h).tail fun h' => absurd h' hst
        · exact (ih hig h).tail fun h' => absurd h' hst

/-- The specification every later proof uses in place of the loop. -/
theorem action_spec {inst : Instance} {event : Key} {trans : List Transition} {a : Action}
    (h : action inst event trans = .ok a) (hact : instanceActive inst = true) :
    ActionSpec inst event trans a := by
  rw [action, if_pos hact] at h
  exact actionLoop_spec (fun hf => by cases hf) h

theorem action_inactive {inst : Instance} {event : Key} {trans : List Transition}
    (hina : instanceActive inst = false) : action inst event trans = .ok .ignore := by
  simp [action, hina]

/-- Anything but IGNORE is said of an active instance. -/
theorem active_of_action {inst : Instance} {event : Key} {trans : List Transition} {a : Action}
    (h : action inst event trans = .ok a) (ha : a ≠ .ignore) : instanceActive inst = true := by
  by_contra hina
  rw [action_inactive (by simpa using hina)] at h
  cases h
  exact ha rfl

/-! ## The result, whatever the order of the list

When the from-states of a list are distinct, at most one of its transitions
leaves the state of the instance, and the result is read off that transition. -/

/-- The event is about this instance: the names agree, and what the event leaves
free the instance has bound. -/
def Compatible (event : Key) (inst : Instance) : Prop :=
  event.Agrees inst.tiKey ∧ SubMask event.tkFreemask inst.tiKey.tkMask

instance (event : Key) (inst : Instance) : Decidable (Compatible event inst) :=
  inferInstanceAs (Decidable (_ ∧ _))

/-- What `t`, the transition that leaves the instance's state, decides. -/
def decision (inst : Instance) (event : Key) (t : Transition) : Action :=
  if t.Loses ∧ t.cleanup = false then .join t
  else if Compatible event inst then
    if SubMask t.toMask t.fromMask then .update t else .fork t
  else .ignore

section Order
variable {inst : Instance} {event : Key}

theorem subMask_or {x y z : Mask} : SubMask (x ||| y) z ↔ SubMask x z ∧ SubMask y z := by
  simp only [subMask_iff, BitVec.getLsbD_or, Bool.or_eq_true]
  exact ⟨fun h => ⟨fun b hb => h b (.inl hb), fun b hb => h b (.inr hb)⟩,
    fun h b hb => hb.elim (h.1 b) (h.2 b)⟩

theorem subMask_and_right {x y : Mask} : SubMask (x &&& y) y := by
  rw [subMask_iff]
  intro b hb
  rw [BitVec.getLsbD_and, Bool.and_eq_true] at hb
  exact hb.2

/-- An event matches an instance when it binds no more than the instance does,
and is compatible with it. -/
theorem keyMatches_iff_compatible :
    keyMatches event inst.tiKey = true ↔
      SubMask event.tkMask inst.tiKey.tkMask ∧ Compatible event inst := by
  rw [keyMatches_iff, subMask_or]
  constructor
  · intro ⟨⟨hmask, hfree⟩, hval⟩
    exact ⟨hmask, fun i hi _ => hval i hi, hfree⟩
  · intro ⟨hmask, hagree, hfree⟩
    exact ⟨⟨hmask, hfree⟩, fun i hi => hagree i hi (subMask_iff.mp hmask i hi)⟩

/-- Masked by the transition's `from_mask`, an event binds what the instance
does at most, and only compatibility is left. -/
theorem eventPattern_matches {t : Transition} (hmask : inst.tiKey.tkMask = t.fromMask) :
    keyMatches (eventPattern event t) inst.tiKey = true ↔ Compatible event inst := by
  rw [keyMatches_iff_compatible]
  have hsub : SubMask (eventPattern event t).tkMask inst.tiKey.tkMask := by
    rw [hmask]
    exact subMask_and_right
  have hagree : (eventPattern event t).Agrees inst.tiKey ↔ event.Agrees inst.tiKey := by
    constructor
    · intro h i he hi
      refine h i ?_ hi
      rw [eventPattern, BitVec.getLsbD_and, he, ← hmask, hi]
      rfl
    · intro h i he hi
      rw [eventPattern, BitVec.getLsbD_and, Bool.and_eq_true] at he
      exact h i he.1 hi
  exact ⟨fun h => ⟨hagree.mp h.2.1, h.2.2⟩, fun h => ⟨hsub, hagree.mpr h.1, h.2⟩⟩

/-- Masking the instance's name by what the pattern speaks about takes nothing
from the comparison. -/
theorem maskedName_matches {pattern : Key} :
    keyMatches pattern (maskedName pattern inst) = keyMatches pattern inst.tiKey := by
  rw [Bool.eq_iff_iff, keyMatches_iff, keyMatches_iff]
  refine and_congr_left fun _ => ?_
  simp only [maskedName, subMask_iff, BitVec.getLsbD_and, Bool.and_eq_true]
  exact ⟨fun h b hb => (h b hb).1, fun h b hb => ⟨h b hb, hb⟩⟩

theorem actionLoop_elsewhere {trans : List Transition} {ig : Bool}
    (h : ∀ t ∈ trans, t.fromState ≠ inst.tiState) :
    actionLoop inst event trans ig =
      .ok (if ig = true ∧ ¬ (trans ≠ [] ∧ keyMatches event inst.tiKey = true)
        then .ignore else .fail) := by
  induction trans generalizing ig with
  | nil => simp [actionLoop]
  | cons t ts ih =>
      obtain ⟨ht, hts⟩ := List.forall_mem_cons.mp h
      rw [actionLoop, if_neg ht]
      split
      · rename_i hm
        rw [ih hts]
        simp [hm]
      · rename_i hm
        rw [ih hts]
        simp [hm]

theorem actionLoop_here {trans : List Transition} {t : Transition} {ig : Bool}
    (hd : (trans.map Transition.fromState).Nodup) (ht : t ∈ trans)
    (hstate : t.fromState = inst.tiState) (hmask : t.fromMask = inst.tiKey.tkMask)
    (hig : ig = false → keyMatches event inst.tiKey = true) :
    actionLoop inst event trans ig = .ok (decision inst event t) := by
  induction trans generalizing ig with
  | nil => cases ht
  | cons u ts ih =>
      obtain ⟨hu, hd⟩ := List.nodup_cons.mp hd
      rcases List.mem_cons.mp ht with rfl | ht
      · -- none of the transitions after `t` leaves the state
        have hrest : ∀ v ∈ ts, v.fromState ≠ inst.tiState := fun v hv he =>
          hu (List.mem_map.mpr ⟨v, hv, he.trans hstate.symm⟩)
        have hback : ¬ Compatible event inst → actionLoop inst event ts ig = .ok .ignore := by
          intro hc
          have hm : ¬ keyMatches event inst.tiKey = true := fun hm =>
            hc (keyMatches_iff_compatible.mp hm).2
          have higt : ig = true := by
            by_contra hf
            exact hm (hig (by simpa using hf))
          rw [actionLoop_elsewhere hrest, if_pos ⟨higt, fun h => hm h.2⟩]
        rw [actionLoop, if_pos hstate, if_neg (not_not.mpr hmask.symm), decision]
        split
        · rfl
        · rw [maskedName_matches]
          simp only [eventPattern_matches hmask.symm]
          split
          · split
            · rfl
            · rename_i hc; exact hback hc
          · split
            · rfl
            · rename_i hc; exact hback hc
      · have hne : u.fromState ≠ inst.tiState := fun he =>
          hu (List.mem_map.mpr ⟨t, ht, hstate.trans he.symm⟩)
        rw [actionLoop, if_neg hne]
        split
        · rename_i hm
          exact ih hd ht fun _ => hm
        · exact ih hd ht hig

/-- `tesla_action` on an active instance and a list whose from-states are
distinct and whose transition from the instance's state carries its mask. -/
theorem action_of_distinct {trans : List Transition} (hact : instanceActive inst = true)
    (hd : (trans.map Transition.fromState).Nodup)
    (hmask : ∀ t ∈ trans, t.fromState = inst.tiState → t.fromMask = inst.tiKey.tkMask) :
    (∀ trans', trans'.Perm trans → action inst event trans' = action inst event trans) ∧
    (∀ t ∈ trans, t.fromState = inst.tiState →
      action inst event trans = .ok (
        if ¬ SubMask t.fromMask t.toMask ∧ t.cleanup = false then .join t
        else if event.Agrees inst.tiKey ∧ SubMask event.tkFreemask inst.tiKey.tkMask then
          if SubMask t.toMask t.fromMask then .update t else .fork t
        else .ignore)) ∧
    ((∀ t ∈ trans, t.fromState ≠ inst.tiState) →
      action inst event trans = .ok (
        if trans ≠ [] ∧ SubMask event.tkMask inst.tiKey.tkMask ∧
            SubMask event.tkFreemask inst.tiKey.tkMask ∧
            ∀ i : Fin keySize, event.tkMask.getLsbD i = true →
              event.tkKeys i = inst.tiKey.tkKeys i
        then .fail else .ignore)) := by
  have hhere : ∀ {l : List Transition} {t : Transition}, l.Perm trans → t ∈ trans →
      t.fromState = inst.tiState → action inst event l = .ok (decision inst event t) := by
    intro l t hp ht hs
    rw [action, if_pos hact]
    exact actionLoop_here ((hp.map _).nodup_iff.mpr hd) (hp.mem_iff.mpr ht) hs (hmask t ht hs)
      fun hf => by cases hf
  have helse : ∀ {l : List Transition}, l.Perm trans →
      (∀ t ∈ trans, t.fromState ≠ inst.tiState) →
      action inst event l =
        .ok (if trans ≠ [] ∧ keyMatches event inst.tiKey = true then .fail else .ignore) := by
    intro l hp hs
    rw [action, if_pos hact, actionLoop_elsewhere fun t ht => hs t (hp.mem_iff.mp ht)]
    have hnil : l = [] ↔ trans = [] := ⟨fun h => (h ▸ hp).nil_eq.symm, fun h => (h ▸ hp).eq_nil⟩
    by_cases hm : trans ≠ [] ∧ keyMatches event inst.tiKey = true
    · simp [hm, hnil]
    · simp [hm, hnil]
  refine ⟨fun trans' hp => ?_, fun t ht hs => hhere (.refl _) ht hs, fun hs => ?_⟩
  · by_cases hs : ∃ t ∈ trans, t.fromState = inst.tiState
    · obtain ⟨t, ht, hs⟩ := hs
      rw [hhere hp ht hs, hhere (.refl _) ht hs]
    · have hs : ∀ t ∈ trans, t.fromState ≠ inst.tiState := fun t ht he => hs ⟨t, ht, he⟩
      rw [helse hp hs, helse (.refl _) hs]
  · rw [helse (.refl _) hs]
    congr 1
    refine if_congr ?_ rfl rfl
    rw [keyMatches_iff, subMask_or, and_assoc]

/-- `x` is known in state 2: the event `x = 5` updates the instance, wherever in
the list the transition from state 2 stands. -/
theorem action_of_distinct_update :
    let inst : Instance := ⟨⟨fun _ => 5, 1, 0⟩, 2⟩
    let fork : Transition := ⟨1, 0, 2, 1, 0⟩
    let step : Transition := ⟨2, 1, 3, 1, 0⟩
    action inst ⟨fun _ => 5, 1, 0⟩ [fork, step] = .ok (.update step) ∧
      action inst ⟨fun _ => 5, 1, 0⟩ [step, fork] =
        action inst ⟨fun _ => 5, 1, 0⟩ [fork, step] := by
  intro inst fork step
  have hmask : ∀ t ∈ [fork, step], t.fromState = inst.tiState → t.fromMask = inst.tiKey.tkMask :=
    by decide
  obtain ⟨horder, hhere, _⟩ :=
    @action_of_distinct inst ⟨fun _ => 5, 1, 0⟩ [fork, step] (by decide) (by decide) hmask
  refine ⟨?_, horder _ (.swap fork step [])⟩
  rw [hhere step (by decide) (by decide)]
  decide

end Order

/-! ## When the assertion cannot fail -/

theorem actionLoop_total {inst : Instance} {event : Key} {trans : List Transition} {ig : Bool}
    (h : ∀ t ∈ trans, t.fromState = inst.tiState → inst.tiKey.tkMask = t.fromMask) :
    ∃ a, actionLoop inst event trans ig = .ok a := by
  induction trans generalizing ig with
  | nil => exact ⟨_, rfl⟩
  | cons t ts ih =>
      obtain ⟨ht, hts⟩ := List.forall_mem_cons.mp h
      simp only [actionLoop]
      split
      · rename_i hst
        rw [if_neg (not_not.mpr (ht hst))]
        split
        · exact ⟨_, rfl⟩
        · split <;> split <;> first | exact ⟨_, rfl⟩ | exact ih hts
      · split <;> exact ih hts

/-- `tesla_action`'s assertion holds whenever the transitions that leave the
instance's state carry the instance's mask. -/
theorem action_total {inst : Instance} {event : Key} {trans : List Transition}
    (h : ∀ t ∈ trans, t.fromState = inst.tiState → inst.tiKey.tkMask = t.fromMask) :
    ∃ a, action inst event trans = .ok a := by
  unfold action
  split
  · exact actionLoop_total h
  · exact ⟨_, rfl⟩

theorem actionLoop_error {inst : Instance} {event : Key} {trans : List Transition} {a : Abort} :
    ∀ {ig : Bool}, actionLoop inst event trans ig = .error a → a = .instanceMask := by
  induction trans with
  | nil =>
    intro ig h
    cases h
  | cons t ts ih =>
    intro ig h
    rw [actionLoop] at h
    split at h
    · split at h
      · cases h
        rfl
      · split at h
        · cases h
        · split at h <;> split at h <;> first | cases h | exact ih h
    · split at h <;> exact ih h

/-- It is the only assertion of `tesla_action`. -/
theorem action_error {inst : Instance} {event : Key} {trans : List Transition} {a : Abort}
    (h : action inst event trans = .error a) : a = .instanceMask := by
  rw [action] at h
  split at h
  · exact actionLoop_error h
  · cases h

end Tesla.Runtime
