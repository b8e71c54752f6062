/-
# `Tesla.Runtime.Masks` — names agree with states

The instrumenter gives every state of an automaton one mask, the variables
that are bound there, and writes it into each transition that enters or
leaves the state (`BuildTransition`).  The run-time relies on it: the
assertion in `tesla_action` compares an instance's mask with `from_mask`.

    state    mask (state)                 the static table
    inst     inst.ti_key.tk_mask          rebuilt at run time, by masking and union

`masks_agree` says the two stay the same.  What has to be shown of each
action is bit arithmetic:

    UPDATE   to_mask = from_mask
    FORK     from_mask ∪ (event ∩ to_mask) = to_mask
    cleanup  the mask goes wrong, but the class is reset before anyone looks

The last line is why symbols must not mix cleanup with other transitions: a
fork that finds no room returns before the reset.
-/
import Tesla.Runtime.Accounting

namespace Tesla.Runtime

open Lib

/-- One mask per state, as the instrumenter emits it. -/
structure Automaton.Masked (autom : Automaton) (mask : Nat → Mask) : Prop where
  masks : ∀ ts ∈ autom.taTransitions, ∀ t ∈ ts,
    t.fromMask = mask t.fromState ∧ t.toMask = mask t.toState
  init : ∀ ts ∈ autom.taTransitions, ∀ t ∈ ts, t.init = true → t.toMask = 0
  states : autom.NoZeroTarget
  uniform : ∀ ts ∈ autom.taTransitions,
    (∀ t ∈ ts, t.cleanup = true) ∨ (∀ t ∈ ts, t.cleanup = false)
  cleanup : ∀ ts ∈ autom.taTransitions, ∀ t ∈ ts, t.cleanup = true →
    SubMask t.toMask t.fromMask

/-- The event's key has everything that a transition of its symbol, other than a
cleanup, adds to a name. -/
def Visit.KeyComplete (v : Visit) : Prop :=
  ∀ t ∈ (v.autom.taTransitions[v.symbol]?).getD [], t.cleanup = false →
    SubMask (t.toMask &&& ~~~ t.fromMask) v.pattern.tkMask

instance (v : Visit) : Decidable v.KeyComplete :=
  inferInstanceAs (Decidable (∀ t ∈ _, _ → _))

/-- The masks of the active instances are those of their states. -/
def Agree (mask : Nat → Mask) (insts : List Instance) : Prop :=
  ∀ inst ∈ insts, instanceActive inst = true → inst.tiKey.tkMask = mask inst.tiState

/-- The notification that a clone's name could not be formed. -/
def Event.unionFailed : Event → Bool
  | .err _ _ _ .failedToUnion => true
  | _ => false

theorem unionFailed_of_ofUpdate {ev : Event} (h : ev.ofUpdate = true) :
    ev.unionFailed = false := by
  cases ev with
  | err cls symbol e msg => cases msg <;> first | rfl | cases h
  | sunrise | sunset | newInstance | transition | clone | noInstance | badTransition | accept
  | ignored => rfl

variable {P : Program} {autom : Automaton} {mask : Nat → Mask} {c c' : Class} {d : Delivery}
  {evs evs' : List Event} {m : Nat} {inst : Instance}

/-! ## One instance -/

/-- The transitions of one symbol of a masked automaton, and a key that is
complete for them. -/
structure OnSymbol (mask : Nat → Mask) (d : Delivery) : Prop where
  masks : ∀ t ∈ d.trans, t.fromMask = mask t.fromState ∧ t.toMask = mask t.toState
  uniform : (∀ t ∈ d.trans, t.cleanup = true) ∨ (∀ t ∈ d.trans, t.cleanup = false)
  cleanup : ∀ t ∈ d.trans, t.cleanup = true → SubMask t.toMask t.fromMask
  complete : ∀ t ∈ d.trans, t.cleanup = false →
    SubMask (t.toMask &&& ~~~ t.fromMask) d.pattern.tkMask

/-- The assertion of `tesla_action` holds. -/
theorem OnSymbol.action_ok (hd : OnSymbol mask d)
    (hm : instanceActive inst = true → inst.tiKey.tkMask = mask inst.tiState) :
    ∃ a, actionOf d inst = .ok a := by
  by_cases hact : instanceActive inst = true
  · refine action_total fun t ht hstate => ?_
    rw [hm hact, (hd.masks t ht).1, hstate]
  · exact ⟨.ignore, action_inactive (by simpa using hact)⟩

/-- An UPDATE that is no cleanup keeps the mask and moves to a state with that
mask. -/
theorem OnSymbol.update_mask (hd : OnSymbol mask d) {t : Transition}
    (h : actionOf d inst = .ok (.update t)) (hcl : t.cleanup = false) :
    inst.tiKey.tkMask = mask t.toState := by
  obtain ⟨hl, hlose, hgain, _⟩ := action_spec h (active_of_action h (by simp))
  have hsub : SubMask t.fromMask t.toMask := by
    by_contra hn
    have := hlose hn
    rw [hcl] at this
    cases this
  have heq : t.fromMask = t.toMask := hsub.antisymm (not_not.mp hgain)
  rw [← hl.mask, heq, (hd.masks t hl.mem).2]

/-- The copy made by a FORK has the mask of the state it enters. -/
theorem OnSymbol.fork_mask (hd : OnSymbol mask d) {t : Transition}
    (h : actionOf d inst = .ok (.fork t)) :
    (forkCopy d inst t).tiKey.tkMask = mask t.toState := by
  obtain ⟨hl, hlose, hgain, _⟩ := action_spec h (active_of_action h (by simp))
  have hcl : t.cleanup = false := by
    by_contra hc
    exact hgain (hd.cleanup t hl.mem (by simpa using hc))
  have hsub : SubMask t.fromMask t.toMask := by
    by_contra hn
    have := hlose hn
    rw [hcl] at this
    cases this
  have hcomp := subMask_iff.mp (hd.complete t hl.mem hcl)
  have hunion := (keyUnion_success (fork_agrees h)).1
  rw [← (hd.masks t hl.mem).2]
  show (keyUnion inst.tiKey (newName d.pattern t)).1.tkMask = t.toMask
  rw [hunion, ← hl.mask]
  apply BitVec.eq_of_getLsbD_eq
  intro b hb
  simp only [newName, BitVec.getLsbD_or, BitVec.getLsbD_and]
  have hb' := hcomp b
  have hsub' := subMask_iff.mp hsub b
  simp only [BitVec.getLsbD_and, BitVec.getLsbD_not, hb, decide_true, Bool.true_and] at hb'
  cases hf : t.fromMask.getLsbD b <;> cases ht : t.toMask.getLsbD b <;>
    simp_all

/-! ## One delivery -/

theorem mem_scanned {inst : Instance} (h : inst ∈ (scanned d c m).tcInstances) :
    (∃ u ∈ c.tcInstances.take m, inst = outcome d u) ∨ inst ∈ c.tcInstances.drop m := by
  rcases List.mem_append.mp h with h | h
  · obtain ⟨u, hu, rfl⟩ := List.mem_map.mp h
    exact Or.inl ⟨u, hu, rfl⟩
  · exact Or.inr h

theorem Agree.mono {xs ys : List Instance} (h : Agree mask ys) (hsub : ∀ x ∈ xs, x ∈ ys) :
    Agree mask xs :=
  fun x hx => h x (hsub x hx)

theorem agree_reset : Agree mask (classReset c).tcInstances := by
  intro inst hinst hact
  cases List.eq_of_mem_replicate hinst
  rw [instanceActive_zero] at hact
  cases hact

/-- Without cleanup, the scan and the copies keep the masks right. -/
theorem OnSymbol.agree_of_noCleanup (hd : OnSymbol mask d)
    (hno : ∀ t ∈ d.trans, t.cleanup = false) (h : Agree mask c.tcInstances) :
    Agree mask (scanned d c m).tcInstances ∧ Agree mask (forkCopies d (c.tcInstances.take m)) := by
  constructor
  · intro x hx hact
    rcases mem_scanned hx with ⟨u, hu, rfl⟩ | hx
    · have hu' := List.mem_of_mem_take hu
      rcases outcome_cases (d := d) u with ho | ⟨t, ht, ho⟩ | ⟨t, _, ho⟩
      · rw [ho] at hact ⊢
        exact h u hu' hact
      · rw [ho]
        have hl := (action_spec ht (active_of_action ht (by simp))).1
        show u.tiKey.tkMask = mask t.toState
        exact hd.update_mask ht (hno t hl.mem)
      · rw [ho, instanceActive_zero] at hact
        cases hact
    · exact h x (List.mem_of_mem_drop hx) hact
  · intro x hx _
    obtain ⟨u, _, hu⟩ := List.mem_filterMap.mp hx
    obtain ⟨t, ht, rfl⟩ := forkCopy?_eq_some.mp hu
    exact hd.fork_mask ht

/-- With nothing but cleanup, nothing forks. -/
theorem OnSymbol.forkCopies_of_cleanup (hd : OnSymbol mask d)
    (hall : ∀ t ∈ d.trans, t.cleanup = true) (insts : List Instance) :
    forkCopies d insts = [] := by
  refine List.filterMap_eq_nil_iff.mpr fun u _ => ?_
  rw [Option.eq_none_iff_forall_not_mem]
  intro x hx
  obtain ⟨t, ht, rfl⟩ := forkCopy?_eq_some.mp hx
  obtain ⟨hl, _, hgain, _⟩ := action_spec ht (active_of_action ht (by simp))
  exact hgain (hd.cleanup t hl.mem (hall t hl.mem))

/-- With nothing but cleanup, an instance that changes asks for the reset. -/
theorem outcome_of_not_cleansUp (hall : ∀ t ∈ d.trans, t.cleanup = true)
    (h : cleansUp d inst = false) : outcome d inst = inst := by
  rcases outcome_cases (d := d) inst with ho | ⟨t, ht, _⟩ | ⟨t, ht, _⟩
  · exact ho
  · have hl := (action_spec ht (active_of_action ht (by simp))).1
    rw [cleansUp, ht] at h
    exact absurd (hall t hl.mem) (by simp [h])
  · have hl := (action_spec ht (active_of_action ht (by simp))).1
    rw [cleansUp, ht] at h
    exact absurd (hall t hl.mem) (by simp [h])

theorem OnSymbol.agree_of_delivered (hd : OnSymbol mask d) (h : Agree mask c.tcInstances)
    (hdel : Delivered d c evs m c' evs') : Agree mask c'.tcInstances := by
  rcases hd.uniform with hall | hno
  · have hnil := hd.forkCopies_of_cleanup hall (c.tcInstances.take m)
    cases hdel with
    | @full u hslot hfork =>
        -- no transition of the symbol forks
        have : forkCopies d [u] = [] := hd.forkCopies_of_cleanup hall [u]
        have hlen := forkCopies_length (d := d) [u]
        rw [this, List.countP_singleton, hfork] at hlen
        cases hlen
    | cloned _ _ hshort =>
        rw [hnil] at hshort
        cases hshort
    | done _ hg =>
        rw [hnil] at hg
        cases hg
        split
        · exact agree_reset
        · rename_i hcl
          intro x hx hact
          rcases mem_scanned hx with ⟨u, hu, rfl⟩ | hx
          · have hu' : cleansUp d u = false := by
              by_contra hne
              exact hcl (List.any_eq_true.mpr ⟨u, hu, by simpa using hne⟩)
            rw [outcome_of_not_cleansUp hall hu'] at hact ⊢
            exact h u (List.mem_of_mem_take hu) hact
          · exact h x (List.mem_of_mem_drop hx) hact
  · obtain ⟨hscan, hcopies⟩ := hd.agree_of_noCleanup (m := m) hno h
    cases hdel with
    | full => exact hscan
    | cloned _ hg =>
        exact hg.forall hscan (hcopies.mono fun x hx => List.mem_of_mem_take hx)
    | done _ hg =>
        split
        · exact agree_reset
        · exact hg.forall hscan hcopies

/-! ## The update -/

/-- The delivery of a complete key to a class of a masked automaton. -/
theorem Automaton.Masked.onSymbol {v : Visit} {ts : List Transition}
    (hM : v.autom.Masked mask) (hk : v.KeyComplete)
    (hts : v.autom.taTransitions[v.symbol]? = some ts) (maxClones : Nat) :
    OnSymbol mask (delivery P v.cls v.symbol v.pattern ts maxClones) where
  masks := hM.masks ts (List.mem_of_getElem? hts)
  uniform := hM.uniform ts (List.mem_of_getElem? hts)
  cleanup := hM.cleanup ts (List.mem_of_getElem? hts)
  complete := by
    intro t ht hcl
    rw [Visit.KeyComplete, hts] at hk
    exact hk t ht hcl

theorem Automaton.Masked.agree_init (hM : autom.Masked mask) {ts : List Transition}
    (hts : ∀ t ∈ ts, t ∈ initHits autom) : Agree mask (ts.map initInstance) := by
  intro x hx _
  obtain ⟨t, ht, rfl⟩ := List.mem_map.mp hx
  obtain ⟨⟨us, hus, htus⟩, hinit⟩ := initHits_spec t (hts t ht)
  show (0 : Mask) = mask t.toState
  rw [← (hM.masks us hus t htus).2, hM.init us hus t htus hinit]

/-- Late initialisation keeps the masks right. -/
theorem Automaton.Masked.agree_prepares {cls symbol : Nat} {ls : LifetimeState} {p : Prepared}
    (hM : autom.Masked mask) (h : Agree mask c.tcInstances)
    (hp : Prepares autom cls symbol c ls p) :
    match p with
    | .returned c' _ => Agree mask c'.tcInstances
    | .go c' _ _ => Agree mask c'.tcInstances := by
  cases hp with
  | ready => exact h
  | failed _ _ hg =>
      exact hg.forall h (hM.agree_init fun t ht => List.mem_of_mem_take ht)
  | init _ _ hg => exact hg.forall h (hM.agree_init fun t ht => ht)

theorem Automaton.Masked.updateFound {v : Visit} {ls : LifetimeState}
    (hM : v.autom.Masked mask) (hk : v.KeyComplete) (h : Agree mask v.before.tcInstances) :
    Ensures (updateFound P v.autom v.cls v.symbol v.pattern v.before ls)
      (fun r => Agree mask r.1.tcInstances ∧ ∀ ev ∈ r.2.2, ev.unionFailed = false)
      (fun e => e ≠ .instanceMask) := by
  refine .intro ?_ ?_
  · intro r hr
    have hu := updateFound_spec hr
    refine ⟨?_, fun ev hev => unionFailed_of_ofUpdate (hu.ofUpdate ev hev)⟩
    cases hu with
    | returned hp => exact hM.agree_prepares h hp
    | delivered hp hts _ hd =>
        exact (hM.onSymbol hk hts _).agree_of_delivered (hM.agree_prepares h hp) hd
  · rintro e he rfl
    obtain ⟨c₁, ls', evs, ts, hp, hts, inst, hinst, herr⟩ := updateFound_instanceMask he
    have hagree : Agree mask c₁.tcInstances := hM.agree_prepares h hp
    obtain ⟨a, ha⟩ := (hM.onSymbol (P := P) hk hts v.before.tcFree).action_ok (hagree inst hinst)
    rw [ha] at herr
    cases herr

/-! ## Runs -/

section Runs
variable {mask : Automaton → Nat → Mask}

/-- Nothing is active in an unclaimed class, and in a class of a masked automaton
the masks agree. -/
structure Class.Agrees (P : Program) (mask : Automaton → Nat → Mask) (c : Class) : Prop where
  unclaimed : c.tcAutomaton = none → ∀ inst ∈ c.tcInstances, instanceActive inst = false
  claimed : ∀ a, c.tcAutomaton = some a → (P.automaton a).Masked (mask (P.automaton a)) →
    Agree (mask (P.automaton a)) c.tcInstances

/-- If the visited automaton is masked, the event's key is complete. -/
def Visit.Complete (mask : Automaton → Nat → Mask) (v : Visit) : Prop :=
  v.autom.Masked (mask v.autom) → v.KeyComplete

theorem Class.Agrees.claim {a : Ptr} (h : c.Agrees P mask) (hnone : c.tcAutomaton = none) :
    Class.Agrees P mask { c with tcAutomaton := some a } := by
  refine ⟨fun h' => (by cases h'), fun b _ _ inst hinst hact => ?_⟩
  rw [h.unclaimed hnone inst hinst] at hact
  cases hact

theorem Class.Agrees.update {v : Visit} {a : Ptr} {ls ls' : LifetimeState}
    (ha : v.before.tcAutomaton = some a) (hautom : v.autom = P.automaton a)
    (h : v.before.Agrees P mask) (hv : v.Complete mask)
    (hr : updateFound P v.autom v.cls v.symbol v.pattern v.before ls = .ok (c', ls', evs)) :
    c'.Agrees P mask := by
  have hkeep : c'.tcAutomaton = some a := (updateFound_spec hr).tcAutomaton.trans ha
  refine ⟨fun hnone => (by rw [hkeep] at hnone; cases hnone), fun b hb hM => ?_⟩
  rw [hkeep] at hb
  cases hb
  rw [← hautom] at hM ⊢
  have hbefore : Agree (mask v.autom) v.before.tcInstances := by
    have := h.claimed a ha (hautom ▸ hM)
    rwa [← hautom] at this
  exact ((hM.updateFound (hv hM) hbefore).of_ok hr).1

theorem event_ofCall_unionFailed (ev : Event) (h : ev.ofCall = true) :
    ev.unionFailed = false := by
  cases ev with
  | sunrise | sunset | ignored => rfl
  | newInstance | transition | clone | noInstance | badTransition | err | accept => cases h

/-- Names agree with states in every class of a masked automaton. -/
theorem agrees_preserved : Preserved P (Class.Agrees P mask) (Visit.Complete mask)
    (fun ev => ev.unionFailed = false) (fun _ => True) where
  claim := fun h hnone => h.claim hnone
  update := by
    intro v a ls hv h ha hautom
    refine .intro (fun r hr => ?_) fun _ _ => trivial
    have hev := (updateFound_spec hr).ofUpdate
    exact ⟨h.update ha hautom hv hr, fun ev h => unionFailed_of_ofUpdate (hev ev h)⟩
  event := event_ofCall_unionFailed
  abort := fun _ _ => trivial

/-- When all the automata visited are masked, the assertion does not fail either. -/
theorem agrees_preserved_masked : Preserved P (Class.Agrees P mask)
    (fun v => v.autom.Masked (mask v.autom) ∧ v.KeyComplete)
    (fun ev => ev.unionFailed = false) (fun e => e ≠ .instanceMask) where
  claim := fun h hnone => h.claim hnone
  update := by
    intro v a ls hv h ha hautom
    have hbefore : Agree (mask v.autom) v.before.tcInstances := by
      have := h.claimed a ha (hautom ▸ hv.1)
      rwa [← hautom] at this
    refine .intro (fun r hr => ?_) fun e he => ?_
    · have hev := (updateFound_spec hr).ofUpdate
      exact ⟨h.update ha hautom (fun _ => hv.2) hr, fun ev h => unionFailed_of_ofUpdate (hev ev h)⟩
    · exact (hv.1.updateFound hv.2 hbefore).of_error he
  event := event_ofCall_unionFailed
  abort := by
    rintro e he rfl
    cases he

/-- Names agree with states: after any run of calls with complete keys, every
active instance of a masked automaton has the mask of its state, and no next
call fails the assertion in `tesla_action` or fails to unite two keys. -/
theorem masks_agree {classes instances : UInt32} {ks : List Call} {s : Store}
    (h : GuardedRun P (Visit.Complete mask) classes instances ks s) :
    (∀ c ∈ s.tsClasses, ∀ a, c.tcAutomaton = some a →
      (P.automaton a).Masked (mask (P.automaton a)) →
      ∀ inst ∈ c.tcInstances, instanceActive inst = true →
        inst.tiKey.tkMask = mask (P.automaton a) inst.tiState) ∧
    ∀ k, (∀ v ∈ visits P s k, v.autom.Masked (mask v.autom) ∧ v.KeyComplete) →
      call P s k ≠ .error .instanceMask ∧
        ∀ s' evs, call P s k = .ok (s', evs) → ∀ ev ∈ evs, ev.unionFailed = false := by
  have hfresh : (Class.fresh instances.toNat).Agrees P mask := by
    refine ⟨fun _ inst hinst => ?_, fun a ha => by cases ha⟩
    cases List.eq_of_mem_replicate hinst
    exact instanceActive_zero
  have hall := agrees_preserved.run h hfresh
  refine ⟨fun c hc a ha hM => (hall c hc).claimed a ha hM, fun k hk => ?_⟩
  have hnext := agrees_preserved_masked.call hall hk
  exact ⟨fun he => hnext.of_error he rfl, fun s' evs hok => (hnext.of_ok hok).2⟩

/-- The mask of each state of the small automaton. -/
def forkJoinMask (state : Nat) : Mask := if state = 2 then 1 else 0

theorem forkJoin_masked : forkJoin.Masked forkJoinMask where
  masks := by decide
  init := by decide
  states := by decide
  uniform := by decide
  cleanup := by decide

theorem masks_agree_forkJoin : ∃ s : Store, ∃ c ∈ s.tsClasses,
    GuardedRun forkJoinProgram (Visit.Complete fun _ => forkJoinMask) 2 4
      [.sunrise callLifetime, .updateState 7 1 (Key.of 5), .updateState 7 2 (Key.of 5),
        .updateState 7 1 (Key.of 6)] s ∧
    c.active = 2 ∧
    (∀ inst ∈ c.tcInstances, instanceActive inst = true →
      inst.tiKey.tkMask = forkJoinMask inst.tiState) ∧
    call forkJoinProgram s (.sunset callLifetime (Key.of 9)) ≠ .error .instanceMask := by
  have hexec : (Call.run forkJoinProgram Visit.KeyComplete (storeInit 2 4)
      [.sunrise callLifetime, .updateState 7 1 (Key.of 5), .updateState 7 2 (Key.of 5),
        .updateState 7 1 (Key.of 6)]).any (fun s =>
      (s.tsClasses.any fun c => c.tcAutomaton = some 7 ∧ c.active = 2) ∧
        ∀ v ∈ visits forkJoinProgram s (.sunset callLifetime (Key.of 9)),
          v.autom = forkJoin ∧ v.KeyComplete) = true := by decide
  obtain ⟨s, hs, hcheck⟩ := (Option.any_eq_true _ _).mp hexec
  obtain ⟨hany, hvisits⟩ := of_decide_eq_true hcheck
  obtain ⟨c, hc, hc'⟩ := List.any_eq_true.mp hany
  obtain ⟨ha, hactive⟩ := of_decide_eq_true hc'
  have hrun : GuardedRun forkJoinProgram (Visit.Complete fun _ => forkJoinMask) 2 4
      [.sunrise callLifetime, .updateState 7 1 (Key.of 5), .updateState 7 2 (Key.of 5),
        .updateState 7 1 (Key.of 6)] s :=
    (guardedRun_of_exec hs).mono fun hst => ⟨hst.1, fun v hv _ => hst.2 v hv⟩
  obtain ⟨hmasks, hnext⟩ := masks_agree hrun
  refine ⟨s, c, hc, hrun, hactive, hmasks c hc 7 ha forkJoin_masked, ?_⟩
  refine (hnext _ fun v hv => ?_).1
  obtain ⟨hautom, hkey⟩ := hvisits v hv
  exact ⟨hautom ▸ forkJoin_masked, hkey⟩

end Runs

end Tesla.Runtime
