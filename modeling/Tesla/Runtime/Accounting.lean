/-
# `Tesla.Runtime.Accounting` — free slots and active instances

`tc_free` is kept by hand: `tesla_instance_new` counts down, a class reset
starts over, and nothing else writes it.  Two facts follow.

    tc_free + active ≤ tc_limit     always                          `WF`
    tc_free + active = tc_limit     as long as no instance JOINs    `Balanced`

The JOIN case of `tesla_update_class_state` clears the instance with
`tesla_instance_clear` and leaves the counter alone, so each JOIN loses a
slot for good (`join_leaks_slot`).  The inequality is what the rest of the
development uses: a class with an active instance has `tc_free < tc_limit`,
so it is not initialised again, and the scan's early exit, which counts
`tc_limit - tc_free` instances, never passes over an active one.
-/
import Tesla.Runtime.Calls

namespace Tesla.Runtime

open Lib

variable {P : Program} {autom : Automaton} {cls symbol : Nat} {pattern : Key} {c c' : Class}
  {ls ls' : LifetimeState} {evs : List Event} {d : Delivery} {m : Nat}

/-! ## The inequality -/

/-- What every class satisfies, whatever has been called. -/
structure Class.WF (c : Class) : Prop where
  limit : c.tcLimit < 2 ^ 32
  bound : c.tcFree + c.active ≤ c.tcLimit

theorem Class.WF.grown {xs : List Instance} (h : c.WF) (hg : Grown c xs c') : c'.WF := by
  have hl := hg.tcLimit
  have hf := hg.tcFree
  have ha := hg.active
  have hx : xs.countP instanceActive ≤ xs.length := List.countP_le_length
  have hb := h.bound
  exact ⟨hl ▸ h.limit, by omega⟩

theorem active_of_outcome {inst : Instance} (h : instanceActive (outcome d inst) = true) :
    instanceActive inst = true := by
  by_contra hina
  rw [outcome_of_inactive (by simpa using hina)] at h
  exact hina h

theorem scanned_active (m : Nat) : (scanned d c m).active =
    (c.tcInstances.take m).countP (instanceActive ∘ outcome d) +
      (c.tcInstances.drop m).countP instanceActive := by
  show List.countP _ ((c.tcInstances.take m).map (outcome d) ++ c.tcInstances.drop m) = _
  rw [List.countP_append, List.countP_map]

theorem Class.active_split (c : Class) (m : Nat) : c.active =
    (c.tcInstances.take m).countP instanceActive +
      (c.tcInstances.drop m).countP instanceActive := by
  rw [← List.countP_append, List.take_append_drop]
  rfl

theorem scanned_active_le (m : Nat) : (scanned d c m).active ≤ c.active := by
  have hle : (c.tcInstances.take m).countP (instanceActive ∘ outcome d) ≤
      (c.tcInstances.take m).countP instanceActive :=
    List.countP_mono_left fun inst _ h => active_of_outcome h
  rw [scanned_active, c.active_split m]
  omega

theorem Class.WF.scanned (h : c.WF) (m : Nat) : (scanned d c m).WF := by
  have ha := scanned_active_le (d := d) (c := c) m
  have hb := h.bound
  refine ⟨by simpa using h.limit, ?_⟩
  rw [scanned_tcFree, scanned_tcLimit]
  omega

theorem Class.WF.reset (h : c.WF) : (classReset c).WF := by
  refine ⟨by simpa using h.limit, ?_⟩
  simp

theorem Class.WF.delivered (h : c.WF) (hd : Delivered d c evs m c' evs') : c'.WF := by
  cases hd with
  | full => exact h.scanned m
  | cloned _ hg => exact (h.scanned m).grown hg
  | done _ hg =>
      split
      · exact ((h.scanned m).grown hg).reset
      · exact (h.scanned m).grown hg

theorem Class.WF.updated (h : c.WF) (hu : Updated P autom cls symbol pattern c ls c' ls' evs) :
    c'.WF := by
  cases hu with
  | returned hp => cases hp with
    | failed _ _ hg => exact h.grown hg
  | delivered hp _ _ hd => cases hp with
    | ready => exact h.delivered hd
    | init _ _ hg => exact (h.grown hg).delivered hd

theorem Class.WF.fresh (instances : UInt32) : (Class.fresh instances.toNat).WF := by
  have hlt := instances.toNat_lt
  refine ⟨?_, ?_⟩
  · simpa [Class.fresh, Class.tcLimit] using hlt
  · simp [Class.fresh, Class.tcLimit, Class.active, List.countP_replicate]

theorem wf_preserved : Preserved P Class.WF (fun _ => True) (fun _ => True) (fun _ => True) where
  claim := fun h _ => ⟨h.limit, h.bound⟩
  update := fun _ h _ _ => .intro
    (fun _ hr => ⟨h.updated (updateFound_spec hr), fun _ _ => trivial⟩) fun _ _ => trivial
  event := fun _ _ => trivial
  abort := fun _ _ => trivial

theorem wf_of_run {classes instances : UInt32} {ks : List Call} {s : Store}
    (h : LibRun P classes instances ks s) : ∀ c ∈ s.tsClasses, c.WF :=
  wf_preserved.run (guardedRun_of_run h) (Class.WF.fresh instances)

/-! ## How far the scan gets -/

/-- The scan does not return, or stop, before slot `j`: the number of
instances in use fits an `int`, and there is room for the forks before `j`. -/
def Reaches (d : Delivery) (c : Class) (j : Nat) : Prop :=
  c.tcLimit < c.tcFree + 2 ^ 31 ∧ (c.tcInstances.take j).countP (isFork d) ≤ d.maxClones

instance (d : Delivery) (c : Class) (j : Nat) : Decidable (Reaches d c j) :=
  inferInstanceAs (Decidable (_ ∧ _))

theorem forkCopies_length (insts : List Instance) :
    (forkCopies d insts).length = insts.countP (isFork d) := by
  rw [forkCopies, List.length_filterMap_eq_countP]
  refine List.countP_congr fun inst _ => ?_
  simp only [forkCopy?, isFork]
  rcases hact : actionOf d inst with e | a
  · simp
  · cases a <;> simp

/-- The `int` that the scan counts down. -/
theorem Class.WF.expected (h : c.WF) :
    ((c.tcLimit : Int) - c.tcFree).bmod (2 ^ 32) =
      if c.tcLimit < c.tcFree + 2 ^ 31 then (c.tcLimit : Int) - c.tcFree
      else (c.tcLimit : Int) - c.tcFree - 2 ^ 32 := by
  have hl := h.limit
  have hb := h.bound
  rw [Int.bmod_def, Int.emod_eq_of_lt (by omega) (by omega)]
  split <;> split <;> omega

theorem Reach.reaches (h : Reach d c m) (hwf : c.WF) {j : Nat} (hj : j < m) :
    Reaches d c j := by
  have hpos := h.go (by omega)
  have hroom := h.room
  have hl := hwf.limit
  have hsub : ((c.tcInstances.take j).countP (isFork d)) ≤
      (c.tcInstances.take m).countP (isFork d) :=
    (List.take_prefix_take_left (by omega)).sublist.countP_le
  rw [hwf.expected] at hpos
  rw [forkCopies_length] at hroom
  refine ⟨?_, hsub.trans hroom⟩
  by_contra hge
  rw [if_neg hge] at hpos
  omega

/-- Behind the fork that finds no room nothing is reached any more. -/
theorem le_of_reaches {inst : Instance} {j : Nat} (hslot : c.tcInstances[m]? = some inst)
    (hfork : isFork d inst = true)
    (hroom : d.maxClones ≤ (forkCopies d (c.tcInstances.take m)).length)
    (hreach : Reaches d c j) : j ≤ m := by
  by_contra hgt
  have hpre : (c.tcInstances.take (m + 1)).countP (isFork d) ≤
      (c.tcInstances.take j).countP (isFork d) :=
    (List.take_prefix_take_left (by omega)).sublist.countP_le
  rw [List.take_add_one, hslot, List.countP_append] at hpre
  simp only [Option.toList_some, List.countP_singleton, hfork, if_true] at hpre
  rw [forkCopies_length] at hroom
  have := hreach.2
  omega

/-- Where the scan stops for want of expected instances, only inactive slots
are left. -/
theorem inactive_of_stop (hwf : c.WF) (hused : c.tcLimit < c.tcFree + 2 ^ 31)
    (hstop : m = c.tcLimit ∨ ((c.tcLimit : Int) - c.tcFree).bmod (2 ^ 32) ≤
      ((c.tcInstances.take m).countP (handled d) : Nat)) :
    ∀ inst ∈ c.tcInstances.drop m, instanceActive inst = false := by
  rcases hstop with rfl | hle
  · intro inst hinst
    rw [Class.tcLimit, List.drop_length] at hinst
    cases hinst
  · rw [hwf.expected, if_pos hused] at hle
    have hhandled : (c.tcInstances.take m).countP (handled d) ≤
        (c.tcInstances.take m).countP instanceActive :=
      List.countP_mono_left fun inst _ h => handled_active h
    have hsplit := c.active_split m
    have hb := hwf.bound
    have hzero : (c.tcInstances.drop m).countP instanceActive = 0 := by omega
    intro inst hinst
    simpa using List.countP_eq_zero.mp hzero inst hinst

/-! ## The equation -/

/-- `tc_free` is the number of inactive slots. -/
def Class.Balanced (c : Class) : Prop := c.tcFree + c.active = c.tcLimit

instance (c : Class) : Decidable c.Balanced := inferInstanceAs (Decidable (_ = _))

/-- No transition of the automaton leads to state 0. -/
def Automaton.NoZeroTarget (a : Automaton) : Prop :=
  ∀ ts ∈ a.taTransitions, ∀ t ∈ ts, t.toState ≠ 0

instance (a : Automaton) : Decidable a.NoZeroTarget :=
  inferInstanceAs (Decidable (∀ ts ∈ _, ∀ t ∈ ts, _))

/-- The instance is cleared by a JOIN. -/
def joins (d : Delivery) (inst : Instance) : Bool :=
  match actionOf d inst with
  | .ok (.join _) => true
  | _ => false

/-- The event as the visited class sees it. -/
def Visit.delivery (P : Program) (v : Visit) : Delivery :=
  Runtime.delivery P v.cls v.symbol v.pattern ((v.autom.taTransitions[v.symbol]?).getD [])
    v.before.tcFree

theorem Visit.delivery_eq {v : Visit} {ts : List Transition}
    (hts : v.autom.taTransitions[v.symbol]? = some ts) :
    v.delivery P = Runtime.delivery P v.cls v.symbol v.pattern ts v.before.tcFree := by
  rw [Visit.delivery, hts]
  rfl

/-- The scan reaches no instance that JOINs. -/
def Visit.NoJoin (P : Program) (v : Visit) : Prop :=
  ∀ j < v.before.tcLimit, Reaches (v.delivery P) v.before j →
    joins (v.delivery P) (v.before.tcInstances.getD j Instance.zero) = false

instance (P : Program) (v : Visit) : Decidable (v.NoJoin P) :=
  inferInstanceAs (Decidable (∀ j < _, _ → _))

theorem Class.Balanced.grown {xs : List Instance} (h : c.Balanced) (hg : Grown c xs c')
    (hxs : ∀ x ∈ xs, instanceActive x = true) : c'.Balanced := by
  have hl := hg.tcLimit
  have hf := hg.tcFree
  have ha := hg.active
  have hx : xs.countP instanceActive = xs.length := List.countP_eq_length.mpr hxs
  have hb : c.tcFree + c.active = c.tcLimit := h
  show c'.tcFree + c'.active = c'.tcLimit
  omega

/-- A transition to a state other than 0 leaves an active instance. -/
theorem active_of_state {inst : Instance} (h : inst.tiState ≠ 0) :
    instanceActive inst = true :=
  instanceActive_iff.mpr (Or.inl h)

theorem outcome_active {inst : Instance} (hz : ∀ t ∈ d.trans, t.toState ≠ 0)
    (hj : joins d inst = false) (hact : instanceActive inst = true) :
    instanceActive (outcome d inst) = true := by
  rcases outcome_cases (d := d) inst with h | ⟨t, ht, h⟩ | ⟨t, ht, _⟩
  · rw [h]; exact hact
  · rw [h]
    exact active_of_state (hz t (action_spec ht hact).1.mem)
  · rw [joins, ht] at hj
    cases hj

theorem Class.Balanced.scanned (h : c.Balanced) (hz : ∀ t ∈ d.trans, t.toState ≠ 0)
    (hj : ∀ inst ∈ c.tcInstances.take m, joins d inst = false) :
    (scanned d c m).Balanced := by
  have hsame : (c.tcInstances.take m).countP (instanceActive ∘ outcome d) =
      (c.tcInstances.take m).countP instanceActive :=
    List.countP_congr fun inst hinst => ⟨active_of_outcome, outcome_active hz (hj inst hinst)⟩
  have hact : (Runtime.scanned d c m).active = c.active := by
    rw [scanned_active, hsame, ← c.active_split m]
  show (Runtime.scanned d c m).tcFree + (Runtime.scanned d c m).active = _
  rw [hact, scanned_tcFree, scanned_tcLimit]
  exact h

theorem forkCopies_active (hz : ∀ t ∈ d.trans, t.toState ≠ 0) (insts : List Instance) :
    ∀ x ∈ forkCopies d insts, instanceActive x = true := by
  intro x hx
  obtain ⟨inst, _, hinst⟩ := List.mem_filterMap.mp hx
  obtain ⟨t, ht, rfl⟩ := forkCopy?_eq_some.mp hinst
  have hact := active_of_action ht (by simp)
  exact active_of_state (hz t (action_spec ht hact).1.mem)

theorem Class.Balanced.reset : (classReset c).Balanced := by
  show (classReset c).tcFree + (classReset c).active = (classReset c).tcLimit
  simp

theorem Class.Balanced.delivered (h : c.Balanced) (hz : ∀ t ∈ d.trans, t.toState ≠ 0)
    (hj : ∀ inst ∈ c.tcInstances.take m, joins d inst = false)
    (hd : Delivered d c evs m c' evs') : c'.Balanced := by
  have hs := h.scanned hz hj
  have hcp := forkCopies_active hz (c.tcInstances.take m)
  cases hd with
  | full => exact hs
  | cloned _ hg => exact hs.grown hg fun x hx => hcp x (List.mem_of_mem_take hx)
  | done _ hg =>
      split
      · exact .reset
      · exact hs.grown hg hcp

/-- An instance without a name has nothing to lose. -/
theorem not_joins_of_mask {inst : Instance} (h : inst.tiKey.tkMask = 0) :
    joins d inst = false := by
  simp only [joins]
  split
  · rename_i t ht
    obtain ⟨hl, hlose, _⟩ := action_spec ht (active_of_action ht (by simp))
    refine (hlose ?_).elim
    rw [hl.mask, h, SubMask]
    simp
  · rfl

theorem not_joins_of_inactive {inst : Instance} (h : instanceActive inst = false) :
    joins d inst = false := by
  rw [joins, actionOf, action_inactive h]

/-- In a class without free slots in use, nothing is active. -/
theorem Class.WF.inactive_of_empty (h : c.WF) (hempty : c.tcLimit = c.tcFree) :
    ∀ inst ∈ c.tcInstances, instanceActive inst = false := by
  have hb := h.bound
  have hzero : c.active = 0 := by omega
  intro inst hinst
  simpa using List.countP_eq_zero.mp hzero inst hinst

theorem Class.WF.filter_of_empty (h : c.WF) (hempty : c.tcLimit = c.tcFree) :
    c.tcInstances.filter instanceActive = [] := by
  rw [List.filter_eq_nil_iff]
  intro inst hinst
  simp [h.inactive_of_empty hempty inst hinst]

theorem not_joins_of_init {ts : List Transition} (hwf : c.WF) (hempty : c.tcLimit = c.tcFree)
    (hg : Grown c (ts.map initInstance) c') : ∀ inst ∈ c'.tcInstances, joins d inst = false := by
  refine hg.forall ?_ ?_
  · intro inst hinst
    exact not_joins_of_inactive (hwf.inactive_of_empty hempty inst hinst)
  · intro x hx
    obtain ⟨t, _, rfl⟩ := List.mem_map.mp hx
    exact not_joins_of_mask rfl

theorem Class.Balanced.updated {v : Visit} (hb : v.before.Balanced) (hwf : v.before.WF)
    (hz : v.autom.NoZeroTarget) (hj : v.NoJoin P)
    (hu : Updated P v.autom v.cls v.symbol v.pattern v.before ls c' ls' evs) :
    c'.Balanced := by
  have hinit : ∀ ts : List Transition, (∀ t ∈ ts, t.toState ≠ 0) →
      ∀ x ∈ ts.map initInstance, instanceActive x = true := by
    intro ts hts x hx
    obtain ⟨t, ht, rfl⟩ := List.mem_map.mp hx
    exact active_of_state (hts t ht)
  cases hu with
  | returned hp => cases hp with
    | failed _ _ hg hst => exact hb.grown hg (hinit _ hst)
  | @delivered c₁ _ _ _ _ ts m hp hts hreach hd =>
      have hzero : ∀ t ∈ ts, t.toState ≠ 0 := hz ts (List.mem_of_getElem? hts)
      cases hp with
      | ready =>
          refine hb.delivered hzero (fun inst hinst => ?_) hd
          obtain ⟨j, hlt, rfl⟩ := List.mem_take_iff_getElem.mp hinst
          have hget := List.getElem?_eq_getElem (Nat.lt_of_lt_of_le hlt (Nat.min_le_right ..))
          have hno := hj j (List.getElem?_eq_some_iff.mp hget).1
          rw [Visit.delivery_eq hts, List.getD_eq_getElem?_getD, hget] at hno
          exact hno (hreach.reaches hwf (Nat.lt_of_lt_of_le hlt (Nat.min_le_left ..)))
      | init hempty _ hg hst =>
          refine (hb.grown hg (hinit _ hst)).delivered hzero (fun inst hinst => ?_) hd
          exact not_joins_of_init hwf hempty hg inst (List.mem_of_mem_take hinst)

/-! ## Runs -/

/-- A call of the instrumented program, or one of the class operations that a
user of `tesla_internal.h` may apply to a class. -/
inductive Op
  | call (k : Call)
  | classInit (cls : Nat) (instances : UInt32)
  | instanceNew (cls : Nat) (name : Key) (state : Nat)
  | classReset (cls : Nat)
  deriving DecidableEq

/-- `tesla_instance_new` as its caller sees the class: unchanged on an error. -/
def instanceNewOn (c : Class) (name : Key) (state : Nat) : Except Abort Class :=
  match instanceNew c name state with
  | .ok (c', _) => .ok c'
  | .error (.err _) => .ok c
  | .error (.abort a) => .error a

/-- An operation on one class of the store. -/
def onClass (s : Store) (cls : Nat) (f : Class → Except Abort Class) : Except Abort Store :=
  match s.tsClasses[cls]? with
  | none => .error .wildPointer
  | some c =>
      match f c with
      | .error a => .error a
      | .ok c' => .ok { s with tsClasses := s.tsClasses.set cls c' }

def Op.exec (P : Program) (s : Store) : Op → Except Abort Store
  | .call k => (Runtime.call P s k).map Prod.fst
  | .classInit cls instances => onClass s cls (Runtime.classInit · instances)
  | .instanceNew cls name state => onClass s cls (instanceNewOn · name state)
  | .classReset cls => onClass s cls fun c => .ok (Runtime.classReset c)

/-- The deliveries of an operation. -/
def Op.visits (P : Program) (s : Store) : Op → List Visit
  | .call k => Runtime.visits P s k
  | _ => []

/-- An operation that returns and whose deliveries keep to `G`. -/
def OpStep (P : Program) (G : Visit → Prop) (s : Store) (o : Op) (s' : Store) : Prop :=
  o.exec P s = .ok s' ∧ ∀ v ∈ o.visits P s, G v

/-- The runs of all operations, from a fresh store. -/
abbrev OpRun (P : Program) (G : Visit → Prop) (classes instances : UInt32) :
    List Op → Store → Prop :=
  Run (OpStep P G) (storeInit classes instances)

/-- Running operations, as long as their deliveries keep to `G`. -/
def Op.run (P : Program) (G : Visit → Prop) [DecidablePred G] (s : Store) (ops : List Op) :
    Option Store :=
  ops.foldlM (fun s o => if ∀ v ∈ o.visits P s, G v then (o.exec P s).toOption else none) s

theorem opRun_of_run {G : Visit → Prop} [DecidablePred G] {classes instances : UInt32}
    {ops : List Op} {s : Store} (h : Op.run P G (storeInit classes instances) ops = some s) :
    OpRun P G classes instances ops s := by
  refine Run.of_exec (fun {s o t} hst => ?_) h
  split at hst
  · rename_i hG
    exact ⟨ok_of_toOption hst, hG⟩
  · cases hst

/-- The equation, for the classes it is claimed of. -/
structure Class.Accounted (P : Program) (c : Class) : Prop where
  wf : c.WF
  balanced : (∀ a, c.tcAutomaton = some a → (P.automaton a).NoZeroTarget) → c.Balanced

theorem accounted_preserved : Preserved P (Class.Accounted P) (Visit.NoJoin P)
    (fun _ => True) (fun _ => True) where
  claim := by
    intro c a h hnone
    refine ⟨⟨h.wf.limit, h.wf.bound⟩, fun _ => h.balanced fun b hb => ?_⟩
    rw [hnone] at hb
    cases hb
  update := by
    intro v a ls hj h ha hautom
    refine .intro (fun r hr => ⟨?_, fun _ _ => trivial⟩) fun _ _ => trivial
    have hu := updateFound_spec hr
    refine ⟨h.wf.updated hu, fun hz => ?_⟩
    have hkeep : r.1.tcAutomaton = some a := hu.tcAutomaton.trans ha
    have hz' : ∀ b, v.before.tcAutomaton = some b → (P.automaton b).NoZeroTarget := by
      intro b hb
      exact hz b (by rw [hkeep, ← ha, hb])
    exact (h.balanced hz').updated h.wf (hautom ▸ hz a hkeep) hj hu
  event := fun _ _ => trivial
  abort := fun _ _ => trivial

theorem Class.Accounted.fresh (instances : UInt32) :
    (Class.fresh instances.toNat).Accounted P := by
  refine ⟨Class.WF.fresh instances, fun _ => ?_⟩
  show _ + List.countP _ _ = List.length _
  simp [Class.fresh, List.countP_replicate]

/-- A class operation that keeps the equation keeps it in the whole store. -/
theorem onClass_accounted {s s' : Store} {f : Class → Except Abort Class}
    (hf : ∀ {c c' : Class}, c.Accounted P → f c = .ok c' → c'.Accounted P)
    (hs : ∀ c ∈ s.tsClasses, c.Accounted P) (h : onClass s cls f = .ok s') :
    ∀ c ∈ s'.tsClasses, c.Accounted P := by
  simp only [onClass] at h
  split at h
  · cases h
  · rename_i c hc
    split at h
    · cases h
    · rename_i c' hc'
      cases h
      intro u hu
      rcases List.mem_or_eq_of_mem_set hu with hu | rfl
      · exact hs u hu
      · exact hf (hs c (List.mem_of_getElem? hc)) hc'

theorem classInit_accounted {instances : UInt32} (h : classInit c instances = .ok c') :
    c'.Accounted P := by
  simp only [classInit] at h
  split at h
  · cases h
  · cases h
    have hfresh := Class.Accounted.fresh (P := P) instances
    exact ⟨⟨hfresh.wf.limit, hfresh.wf.bound⟩, fun _ => hfresh.balanced fun _ ha => by cases ha⟩

theorem instanceNewOn_accounted {name : Key} {state : Nat} (hc : c.Accounted P)
    (h : instanceNewOn c name state = .ok c') : c'.Accounted P := by
  simp only [instanceNewOn] at h
  split at h
  · rename_i c₁ i hnew
    cases h
    have hg : Grown c [⟨name, state⟩] c' := .of_new hnew (.nil _)
    refine ⟨hc.wf.grown hg, fun hz => (hc.balanced fun a ha => ?_).grown hg fun x hx => ?_⟩
    · exact hz a (hg.tcAutomaton.trans ha)
    · cases List.mem_singleton.mp hx
      exact instanceActive_iff.mpr (instanceNew_ok hnew).1
  · cases h; exact hc
  · cases h

theorem opStep_accounted {s s' : Store} {o : Op} (hs : ∀ c ∈ s.tsClasses, c.Accounted P)
    (h : OpStep P (Visit.NoJoin P) s o s') : ∀ c ∈ s'.tsClasses, c.Accounted P := by
  obtain ⟨hexec, hG⟩ := h
  cases o with
  | call k =>
      have hkeep := accounted_preserved.call hs hG
      rw [Op.exec] at hexec
      rcases hr : call P s k with e | r
      · rw [hr] at hexec; cases hexec
      · rw [hr] at hexec
        cases hexec
        exact (hkeep.of_ok hr).1
  | classInit cls instances =>
      exact onClass_accounted (fun _ h => classInit_accounted h) hs hexec
  | instanceNew cls name state =>
      exact onClass_accounted (fun hc h => instanceNewOn_accounted hc h) hs hexec
  | classReset cls =>
      have hreset : ∀ {c c' : Class}, c.Accounted P →
          (Except.ok (classReset c) : Except Abort Class) = .ok c' → c'.Accounted P := by
        intro c c' hc h
        cases h
        exact ⟨hc.wf.reset, fun _ => .reset⟩
      exact onClass_accounted hreset hs hexec

/-- Free-slot accounting: as long as the scan reaches no JOIN, `tc_free` plus
the number of active instances is `tc_limit`, also after calls that return
through an error path. -/
theorem free_add_active_eq_limit {classes instances : UInt32} {ops : List Op} {s : Store}
    {a : Ptr} (h : OpRun P (Visit.NoJoin P) classes instances ops s) (hc : c ∈ s.tsClasses)
    (ha : c.tcAutomaton = some a) (hz : (P.automaton a).NoZeroTarget) :
    c.tcFree + c.active = c.tcLimit := by
  have hall : ∀ c ∈ s.tsClasses, c.Accounted P := by
    refine h.invariant (P := fun s => ∀ c ∈ s.tsClasses, c.Accounted P) ?_ opStep_accounted
    intro c hc
    cases List.eq_of_mem_replicate hc
    exact .fresh instances
  refine (hall c hc).balanced fun b hb => ?_
  rw [ha] at hb
  cases hb
  exact hz

/-! ## A small automaton -/

/-- The lifetime of the automaton below. -/
def callLifetime : Lifetime where
  tlBegin := ⟨[99], 1, 1⟩
  tlEnd := ⟨[114], 1, 2⟩

/-- Symbol 0 starts, 1 binds variable 0 to an object, 2 forgets the object again,
3 cleans up. -/
def forkJoin : Automaton where
  taTransitions := [[⟨0, 0, 1, 0, 2⟩], [⟨1, 0, 2, 1, 0⟩], [⟨2, 1, 1, 0, 0⟩],
    [⟨1, 0, 3, 0, 4⟩, ⟨2, 1, 3, 0, 4⟩]]
  taCleanupSymbol := 3
  taLifetime := callLifetime

/-- A program with one automaton. -/
def forkJoinProgram : Program := ⟨fun _ => forkJoin, false⟩

/-- The name that binds variable 0 to `x`. -/
def Key.of (x : Word) : Key := ⟨fun i => if i = 0 then x else 0, 1, 0⟩

/-- The store after a binding event each for the objects `x` and `y`. -/
def twoObjects (x y : Word) : Store where
  tsClasses := [Class.fresh 4,
    ⟨some 7, 1, [⟨Key.zero, 1⟩, ⟨Key.of x, 2⟩, ⟨Key.of y, 2⟩, Instance.zero]⟩]
  tsLifetimes := [{ LifetimeState.fresh callLifetime with
    tlsClasses := some 1 :: List.replicate 31 none }]

theorem twoObjects_reached : LibRun forkJoinProgram 2 4
    [.sunrise callLifetime, .updateState 7 1 (Key.of 5), .updateState 7 1 (Key.of 7)]
    (twoObjects 5 7) :=
  run_of_exec (by decide +kernel)

theorem free_add_active_eq_limit_forkJoin : ∃ s : Store, ∃ c ∈ s.tsClasses,
    OpRun forkJoinProgram (Visit.NoJoin forkJoinProgram) 2 4
      [.call (.sunrise callLifetime), .call (.updateState 7 1 (Key.of 5)),
        .instanceNew 1 (Key.of 6) 2] s ∧
    c.active = 3 ∧ c.tcFree + c.active = c.tcLimit := by
  have hrun : (Op.run forkJoinProgram (Visit.NoJoin forkJoinProgram) (storeInit 2 4)
      [.call (.sunrise callLifetime), .call (.updateState 7 1 (Key.of 5)),
        .instanceNew 1 (Key.of 6) 2]).any (fun s =>
      s.tsClasses.any fun c => c.tcAutomaton = some 7 ∧ c.active = 3) = true := by decide
  obtain ⟨s, hs, hany⟩ := (Option.any_eq_true _ _).mp hrun
  obtain ⟨c, hc, hcheck⟩ := List.any_eq_true.mp hany
  obtain ⟨ha, hact⟩ := of_decide_eq_true hcheck
  have h := opRun_of_run hs
  exact ⟨s, c, hc, h, hact, free_add_active_eq_limit h hc ha (by decide)⟩

/-- A JOIN clears its instance and does not give the slot back. -/
theorem join_leaks_slot : ∃ s : Store, ∃ c ∈ s.tsClasses, ∃ a,
    OpRun forkJoinProgram (fun _ => True) 2 4
      [.call (.sunrise callLifetime), .call (.updateState 7 1 (Key.of 5)),
        .call (.updateState 7 2 (Key.of 5))] s ∧
    c.tcAutomaton = some a ∧ (forkJoinProgram.automaton a).NoZeroTarget ∧
    c.tcFree + c.active ≠ c.tcLimit := by
  have hrun : (Op.run forkJoinProgram (fun _ => True) (storeInit 2 4)
      [.call (.sunrise callLifetime), .call (.updateState 7 1 (Key.of 5)),
        .call (.updateState 7 2 (Key.of 5))]).any (fun s =>
      s.tsClasses.any fun c => c.tcAutomaton = some 7 ∧ c.tcFree + c.active ≠ c.tcLimit) =
      true := by decide
  obtain ⟨s, hs, hany⟩ := (Option.any_eq_true _ _).mp hrun
  obtain ⟨c, hc, hcheck⟩ := List.any_eq_true.mp hany
  obtain ⟨ha, hne⟩ := of_decide_eq_true hcheck
  exact ⟨s, c, hc, 7, opRun_of_run hs, ha, by decide, hne⟩

end Tesla.Runtime
