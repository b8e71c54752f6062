/-
# `Tesla.Runtime.Deliver` — what one event does to a class, as a whole

Instances come into a class in two ways, late initialisation and cloning, and
both go through `tesla_instance_new`.  `Grown c xs c'` says that `c'` is `c`
with the instances `xs` put, one after the other, into slots that looked
inactive; everything the later invariants need to know about creation is a
fact about `Grown`.

    lateInit autom c       grows c by an instance per init transition it stops at   `lateInit_spec`
    moveClones d ks c      grows c by the copies of the first n clones              `moveClones_spec`
    deliver d c            scan, then grow, then perhaps reset                      `deliver_spec`
    updateFound            one of two ways to return early, or `deliver`            `updateFound_spec`

One fact of the source is used throughout.  `tesla_action` asserts that an
instance that takes a transition carries the transition's `from_mask`; a
fork has compared the event with the instance on that mask; hence the union
of the two names cannot fail (`fork_agrees`).
-/
import Tesla.Runtime.Scan

namespace Tesla.Runtime

/-! ## Growing a class -/

inductive Grown : Class → List Instance → Class → Prop
  | nil (c : Class) : Grown c [] c
  | cons {c c' : Class} {x old : Instance} {xs : List Instance} {i : Nat} :
      c.tcInstances[i]? = some old → instanceActive old = false → 0 < c.tcFree →
      Grown { c.setInstance i x with tcFree := c.tcFree - 1 } xs c' →
      Grown c (x :: xs) c'

section Grown
variable {c c' : Class} {xs : List Instance}

theorem Grown.tcAutomaton (h : Grown c xs c') : c'.tcAutomaton = c.tcAutomaton := by
  induction h with
  | nil => rfl
  | cons _ _ _ _ ih => exact ih

theorem Grown.tcLimit (h : Grown c xs c') : c'.tcLimit = c.tcLimit := by
  induction h with
  | nil => rfl
  | cons _ _ _ _ ih => exact ih.trans (Class.setInstance_tcLimit ..)

theorem Grown.tcFree (h : Grown c xs c') : c'.tcFree + xs.length = c.tcFree := by
  induction h with
  | nil => rfl
  | cons _ _ hpos _ ih =>
      simp only [List.length_cons] at ih ⊢
      omega

theorem Grown.active (h : Grown c xs c') :
    c'.active = c.active + xs.countP instanceActive := by
  induction h with
  | nil => rfl
  | @cons c c' x old xs i hold hina _ _ ih =>
      obtain ⟨hlt, rfl⟩ := List.getElem?_eq_some_iff.mp hold
      have hset : (c.tcInstances.set i x).countP instanceActive =
          c.active + if instanceActive x then 1 else 0 := by
        rw [List.countP_set hlt, if_neg (by simp [hina])]
        rfl
      show _ = c.active + _
      rw [ih, List.countP_cons]
      show (c.tcInstances.set i x).countP instanceActive + _ = _
      rw [hset]
      omega

/-- An active instance stays where it is. -/
theorem Grown.frame (h : Grown c xs c') {j : Nat} {inst : Instance}
    (hj : c.tcInstances[j]? = some inst) (hact : instanceActive inst = true) :
    c'.tcInstances[j]? = some inst := by
  induction h with
  | nil => exact hj
  | @cons c c' x old xs i hold hina _ _ ih =>
      have hne : i ≠ j := by
        rintro rfl
        rw [hj] at hold
        cases hold
        rw [hact] at hina
        cases hina
      apply ih
      show (c.tcInstances.set i x)[j]? = some inst
      rw [List.getElem?_set_ne hne]
      exact hj

/-- A slot holds what it held, or one of the new instances. -/
theorem Grown.slot (h : Grown c xs c') {j : Nat} {inst : Instance}
    (hj : c'.tcInstances[j]? = some inst) : c.tcInstances[j]? = some inst ∨ inst ∈ xs := by
  induction h with
  | nil => exact Or.inl hj
  | @cons c c' x old xs i hold hina _ _ ih =>
      rcases ih hj with h | h
      · by_cases hij : i = j
        · subst hij
          obtain ⟨hlt, _⟩ := List.getElem?_eq_some_iff.mp hold
          change (c.tcInstances.set i x)[i]? = some inst at h
          rw [List.getElem?_set_self hlt] at h
          cases h
          exact Or.inr List.mem_cons_self
        · change (c.tcInstances.set i x)[j]? = some inst at h
          rw [List.getElem?_set_ne hij] at h
          exact Or.inl h
      · exact Or.inr (List.mem_cons_of_mem _ h)

/-- A property of all instances of a class that the new ones have too. -/
theorem Grown.forall (h : Grown c xs c') {Q : Instance → Prop}
    (hc : ∀ inst ∈ c.tcInstances, Q inst) (hxs : ∀ x ∈ xs, Q x) :
    ∀ inst ∈ c'.tcInstances, Q inst := by
  intro inst hinst
  obtain ⟨j, hj⟩ := List.mem_iff_getElem?.mp hinst
  rcases h.slot hj with hj | hx
  · exact hc inst (List.mem_iff_getElem?.mpr ⟨j, hj⟩)
  · exact hxs inst hx

theorem Grown.of_new {x : Instance} {slot : Nat}
    (h : instanceNew c x.tiKey x.tiState = .ok (c', slot)) (hg : Grown c' xs c'') :
    Grown c (x :: xs) c'' := by
  obtain ⟨_, hpos, ⟨old, hold, hina⟩, rfl⟩ := instanceNew_ok h
  exact .cons hold hina hpos hg

end Grown

/-! ## Late initialisation -/

/-- The init transitions the two loops of late initialisation stop at. -/
def initHitsFrom (autom : Automaton) : Nat → Nat → List Transition
  | 0, _ => []
  | fuel + 1, i =>
      match autom.taTransitions[i]? with
      | none => []
      | some ts =>
          match initInner ts (ts.length - i) i with
          | (i', none) => initHitsFrom autom fuel (i' + 1)
          | (i', some t) => t :: initHitsFrom autom fuel (i' + 1)

def initHits (autom : Automaton) : List Transition :=
  initHitsFrom autom autom.taAlphabetSize 0

theorem initInner_some {ts : List Transition} {n i i' : Nat} {t : Transition}
    (h : initInner ts n i = (i', some t)) : t ∈ ts ∧ t.init = true := by
  induction n generalizing i with
  | zero => cases h
  | succ n ih =>
      simp only [initInner] at h
      split at h
      · rename_i u hu
        split at h
        · rename_i hinit
          cases h
          exact ⟨List.mem_iff_getElem?.mpr ⟨0, hu⟩, hinit⟩
        · exact ih h
      · cases h

theorem initHitsFrom_spec {autom : Automaton} {fuel i : Nat} :
    ∀ t ∈ initHitsFrom autom fuel i, autom.Has t ∧ t.init = true := by
  induction fuel generalizing i with
  | zero => intro t ht; cases ht
  | succ fuel ih =>
      intro t ht
      simp only [initHitsFrom] at ht
      split at ht
      · cases ht
      · rename_i ts hts
        split at ht
        · exact ih t ht
        · rename_i i' u hu
          rcases List.mem_cons.mp ht with rfl | ht
          · obtain ⟨hmem, hinit⟩ := initInner_some hu
            exact ⟨⟨ts, List.mem_iff_getElem?.mpr ⟨i, hts⟩, hmem⟩, hinit⟩
          · exact ih t ht

/-- Late initialisation only stops at init transitions of the automaton. -/
theorem initHits_spec {autom : Automaton} :
    ∀ t ∈ initHits autom, autom.Has t ∧ t.init = true := initHitsFrom_spec

/-- The instance late initialisation makes for an init transition. -/
def initInstance (t : Transition) : Instance := ⟨Key.zero, t.toState⟩

/-- `r` is what late initialisation leaves when it gets through the first `n` of
the init transitions `ts`, having come with `inst`. -/
structure LateInitSpec (ts : List Transition) (c : Class) (inst : Option Nat) (n : Nat)
    (r : LateInit) : Prop where
  le : n ≤ ts.length
  grown : Grown c ((ts.take n).map initInstance) r.cls
  states : ∀ t ∈ ts.take n, t.toState ≠ 0
  inst_none : r.inst = none → n = 0
  inst_zero : n = 0 → r.inst = inst
  err_none : r.err = none → n = ts.length
  err_some : r.err ≠ none → ∃ t, ts[n]? = some t ∧ (t.toState = 0 ∨ r.cls.tcFree = 0)

theorem initOuter_spec {autom : Automaton} {fuel i : Nat} : ∀ {c : Class} {inst : Option Nat}
    {r : LateInit}, initOuter autom fuel i c inst = .ok r →
    ∃ n, LateInitSpec (initHitsFrom autom fuel i) c inst n r := by
  induction fuel generalizing i with
  | zero =>
      intro c inst r h
      cases h
      exact ⟨0, Nat.le_refl _, .nil c, by simp, fun _ => rfl, fun _ => rfl, fun _ => rfl,
        fun h => (h rfl).elim⟩
  | succ fuel ih =>
      intro c inst r h
      simp only [initOuter] at h
      simp only [initHitsFrom]
      rcases hts : autom.taTransitions[i]? with _ | ts
      · rw [hts] at h
        cases h
        exact ⟨0, Nat.le_refl _, .nil c, by simp, fun _ => rfl, fun _ => rfl, fun _ => rfl,
        fun h => (h rfl).elim⟩
      · rw [hts] at h
        rcases hin : initInner ts (ts.length - i) i with ⟨i', _ | t⟩
        · simp only [hin] at h ⊢
          exact ih h
        · simp only [hin] at h ⊢
          split at h
          · rename_i c₁ slot hnew
            obtain ⟨n, hn⟩ := ih h
            have hstate : t.toState ≠ 0 := by
              rcases (instanceNew_ok hnew).1 with h' | h'
              · exact h'
              · exact absurd rfl h'
            refine ⟨n + 1, Nat.succ_le_succ hn.le, ?_, ?_, ?_, by simp, ?_, ?_⟩
            · exact Grown.of_new (x := initInstance t) hnew hn.grown
            · rw [List.take_succ_cons, List.forall_mem_cons]
              exact ⟨hstate, hn.states⟩
            · intro hnone
              have h0 := hn.inst_none hnone
              rw [hn.inst_zero h0] at hnone
              cases hnone
            · intro herr
              simp [hn.err_none herr]
            · intro herr
              obtain ⟨u, hu, hfail⟩ := hn.err_some herr
              exact ⟨u, by simpa using hu, hfail⟩
          · rename_i e hnew
            cases h
            have hfail : t.toState = 0 ∨ c.tcFree = 0 := by
              rcases instanceNew_error hnew with ⟨_, hs, _⟩ | ⟨_, hf⟩ | ⟨h', _⟩
              · exact Or.inl hs
              · exact Or.inr hf
              · cases h'
            exact ⟨0, Nat.zero_le _, .nil c, by simp, fun _ => rfl, fun _ => rfl,
              (fun herr => by cases herr), fun _ => ⟨t, rfl, hfail⟩⟩
          · cases h

/-- Late initialisation creates an instance, with an empty name, for each of the
first `n` init transitions it stops at: all of them unless it reports an
error. -/
theorem lateInit_spec {autom : Automaton} {c : Class} {r : LateInit}
    (h : lateInit autom c = .ok r) : ∃ n, LateInitSpec (initHits autom) c none n r :=
  initOuter_spec h

/-! ## Clones -/

section Clones
variable {d : Delivery}

/-- The copy a fork of `orig` by `t` makes. -/
def forkCopy (d : Delivery) (orig : Instance) (t : Transition) : Instance :=
  ⟨(keyUnion orig.tiKey (newName d.pattern t)).1, t.toState⟩

/-- The name of an instance that forks agrees with what the event adds. -/
theorem fork_agrees {orig : Instance} {t : Transition}
    (h : actionOf d orig = .ok (.fork t)) :
    orig.tiKey.Agrees (newName d.pattern t) := by
  obtain ⟨hl, _, _, hm⟩ := action_spec h (active_of_action h (by simp))
  intro i ho hn
  have hmask : (eventPattern d.pattern t).tkMask.getLsbD i = true := by
    simp only [eventPattern, newName, BitVec.getLsbD_and, Bool.and_eq_true, hl.mask] at hn ⊢
    exact ⟨hn.1, ho⟩
  exact ((keyMatches_iff.mp hm).2 i hmask).symm

/-- The copies of the clones `ks`, read off the class the clones were noted in. -/
def copies (d : Delivery) (c : Class) (ks : List Clone) : List Instance :=
  ks.map fun k => forkCopy d (c.tcInstances.getD k.old Instance.zero) k.transition

/-- Each clone was noted for an instance of `c` that forks. -/
def Noted (d : Delivery) (c : Class) (ks : List Clone) : Prop :=
  ∀ k ∈ ks, ∃ orig, c.tcInstances[k.old]? = some orig ∧
    actionOf d orig = .ok (.fork k.transition)

/-- The notifications of the clone loop. -/
def Event.ofClone : Event → Bool
  | .clone .. | .accept .. | .err _ _ _ .failedToClone => true
  | _ => false

/-- `r` is `c` with the copies of the first `n` clones; the source has returned
unless these are all, and then because no slot was free. -/
structure ClonedSpec (d : Delivery) (c : Class) (ks : List Clone) (evs : List Event) (n : Nat)
    (r : Cloned) : Prop where
  le : n ≤ ks.length
  grown : Grown c (copies d c (ks.take n)) r.cls
  done : r.returned = false → n = ks.length
  full : r.returned = true → n < ks.length ∧ r.cls.tcFree = 0
  evs : ∃ new, r.evs = evs ++ new ∧ ∀ ev ∈ new, ev.ofClone = true

theorem Noted.frame {c c' : Class} {ks : List Clone} (h : Noted d c ks)
    (hf : ∀ {j : Nat} {inst : Instance}, c.tcInstances[j]? = some inst →
      instanceActive inst = true → c'.tcInstances[j]? = some inst) :
    Noted d c' ks ∧ copies d c' ks = copies d c ks := by
  have hslot : ∀ k ∈ ks, ∃ orig, c.tcInstances[k.old]? = some orig ∧
      c'.tcInstances[k.old]? = some orig ∧ actionOf d orig = .ok (.fork k.transition) := by
    intro k hk
    obtain ⟨orig, ho, ha⟩ := h k hk
    exact ⟨orig, ho, hf ho (active_of_action ha (by simp)), ha⟩
  refine ⟨fun k hk => ?_, List.map_congr_left fun k hk => ?_⟩
  · obtain ⟨orig, _, ho, ha⟩ := hslot k hk
    exact ⟨orig, ho, ha⟩
  · obtain ⟨orig, ho, ho', _⟩ := hslot k hk
    simp only [List.getD_eq_getElem?_getD, ho, ho']

theorem moveClones_spec {ks : List Clone} : ∀ {c : Class} {evs : List Event} {r : Cloned},
    Noted d c ks → moveClones d ks c evs = .ok r → ∃ n, ClonedSpec d c ks evs n r := by
  induction ks with
  | nil =>
      intro c evs r _ h
      cases h
      exact ⟨0, Nat.le_refl _, .nil c, fun _ => rfl, (fun h => by cases h), [], by simp⟩
  | cons k ks ih =>
      intro c evs r hn h
      obtain ⟨hk, hks⟩ := List.forall_mem_cons.mp hn
      obtain ⟨orig, horig, hact⟩ := hk
      have hactive := active_of_action hact (by simp)
      have hget : c.tcInstances.getD k.old Instance.zero = orig := by
        rw [List.getD_eq_getElem?_getD, horig]; rfl
      simp only [moveClones, hget] at h
      split at h
      · cases h
      · rename_i e he
        cases h
        have hfree : c.tcFree = 0 := by
          rcases instanceNew_error he with ⟨_, hs, hm⟩ | ⟨_, hf⟩ | ⟨h', _⟩
          · exact ((instanceActive_iff.mp hactive).elim (· hs) (· hm)).elim
          · exact hf
          · cases h'
        refine ⟨0, Nat.zero_le _, .nil c, (fun h => by cases h), fun _ => ⟨by simp, hfree⟩, _, rfl, ?_⟩
        intro ev hev
        cases List.mem_singleton.mp hev
        rfl
      · rename_i c' slot hnew
        have hok := (keyUnion_success_iff _ _).mpr (fork_agrees hact)
        split at h
        · rename_i key hkey
          have hcopy : forkCopy d orig k.transition = ⟨key, k.transition.toState⟩ := by
            rw [forkCopy, hkey]
          obtain ⟨_, hpos, ⟨old, hold, hina⟩, rfl⟩ := instanceNew_ok hnew
          simp only [Class.setInstance, List.set_set] at h
          rw [← hcopy] at h
          have hone : Grown c [forkCopy d orig k.transition]
              { c.setInstance slot (forkCopy d orig k.transition) with
                tcFree := c.tcFree - 1 } := .cons hold hina hpos (.nil _)
          obtain ⟨hks', hcp⟩ := Noted.frame hks hone.frame
          obtain ⟨n, hn⟩ := ih hks' h
          have hcps : copies d c (k :: ks.take n) =
              forkCopy d orig k.transition :: copies d c (ks.take n) := by
            simp only [copies, List.map_cons, hget]
          have hfull : r.returned = true → n + 1 < (k :: ks).length ∧ r.cls.tcFree = 0 :=
            fun hr => ⟨Nat.succ_lt_succ (hn.full hr).1, (hn.full hr).2⟩
          refine ⟨n + 1, Nat.succ_le_succ hn.le, ?_, ?_, hfull, ?_⟩
          · rw [List.take_succ_cons, hcps]
            have htake : Noted d c (ks.take n) := fun k hk => hks k (List.mem_of_mem_take hk)
            have hcp' := (htake.frame hone.frame).2
            exact .cons hold hina hpos (hcp' ▸ hn.grown)
          · intro hr
            rw [List.length_cons, hn.done hr]
          · obtain ⟨new, hnew, hall⟩ := hn.evs
            refine ⟨_, by rw [hnew]; simp only [List.append_assoc]; rfl, ?_⟩
            intro ev hev
            simp only [List.mem_append, List.mem_singleton] at hev
            rcases hev with rfl | hev | hev
            · rfl
            · split at hev
              · cases List.mem_singleton.mp hev; rfl
              · cases hev
            · exact hall ev hev
        · rename_i key e hne hkey
          exact (hne (by rw [hkey] at hok; exact hok)).elim

/-- An error report. -/
def Event.isErr : Event → Bool
  | .err .. => true
  | _ => false

/-- Clones that are all made report no error. -/
theorem moveClones_calm {ks : List Clone} : ∀ {c : Class} {evs : List Event} {r : Cloned},
    moveClones d ks c evs = .ok r → r.returned = false →
    ∀ ev ∈ r.evs, ev.isErr = true → ev ∈ evs := by
  induction ks with
  | nil =>
      intro c evs r h _ ev hev _
      cases h
      exact hev
  | cons k ks ih =>
      intro c evs r h hr ev hev herr
      simp only [moveClones] at h
      split at h
      · cases h
      · cases h
        cases hr
      · split at h
        · have hev := ih h hr ev hev herr
          simp only [List.mem_append, List.mem_singleton] at hev
          rcases hev with (hev | rfl) | hev
          · exact hev
          · cases herr
          · split at hev
            · cases List.mem_singleton.mp hev
              cases herr
            · cases hev
        · cases h
          cases hr

end Clones

/-! ## Scan, clones and end -/

section Deliver
variable {d : Delivery} {c : Class}

/-- The class once the scan has handled its first `m` slots. -/
def scanned (d : Delivery) (c : Class) (m : Nat) : Class :=
  { c with tcInstances := (c.tcInstances.take m).map (outcome d) ++ c.tcInstances.drop m }

/-- The copy an instance asks for. -/
def forkCopy? (d : Delivery) (inst : Instance) : Option Instance :=
  match actionOf d inst with
  | .ok (.fork t) => some (forkCopy d inst t)
  | _ => none

/-- The copies the instances of a list ask for, in order. -/
def forkCopies (d : Delivery) (insts : List Instance) : List Instance :=
  insts.filterMap (forkCopy? d)

theorem forkCopy?_eq_some {inst x : Instance} :
    forkCopy? d inst = some x ↔
      ∃ t, actionOf d inst = .ok (.fork t) ∧ x = forkCopy d inst t := by
  simp only [forkCopy?]
  split
  · rename_i t ht
    refine ⟨fun h => ⟨t, ht, (Option.some.inj h).symm⟩, fun ⟨u, hu, hx⟩ => ?_⟩
    rw [ht] at hu
    cases hu
    rw [hx]
  · rename_i hne
    exact ⟨fun h => (by cases h), fun ⟨t, ht, _⟩ => (hne t ht).elim⟩

@[simp] theorem scanned_tcFree (m : Nat) : (scanned d c m).tcFree = c.tcFree := rfl

@[simp] theorem scanned_tcAutomaton (m : Nat) :
    (scanned d c m).tcAutomaton = c.tcAutomaton := rfl

@[simp] theorem scanned_tcLimit (m : Nat) : (scanned d c m).tcLimit = c.tcLimit := by
  simp only [scanned, Class.tcLimit, List.length_append, List.length_map, List.length_take,
    List.length_drop]
  omega

theorem scanned_slot {m j : Nat} {inst : Instance} (hj : c.tcInstances[j]? = some inst) :
    (scanned d c m).tcInstances[j]? = some (if j < m then outcome d inst else inst) := by
  have hlt := (List.getElem?_eq_some_iff.mp hj).1
  simp only [scanned, List.getElem?_append, List.length_map, List.length_take]
  split
  · rename_i h
    rw [if_pos (by omega), List.getElem?_map, List.getElem?_take_of_lt (by omega), hj]
    rfl
  · rename_i h
    have hm : m ≤ j := by omega
    rw [if_neg (by omega), List.getElem?_drop, ← hj]
    congr 1
    omega

/-- The scan leaves an instance that forks as it is. -/
theorem outcome_of_fork {inst : Instance} {t : Transition}
    (h : actionOf d inst = .ok (.fork t)) : outcome d inst = inst := by
  simp only [outcome, h]

theorem forks_noted {insts : List Instance} : ∀ {i : Nat},
    (∀ {j : Nat} {inst : Instance}, insts[j]? = some inst →
      c.tcInstances[i + j]? = some (outcome d inst)) →
    Noted d c (forks d i insts) ∧ copies d c (forks d i insts) = forkCopies d insts := by
  induction insts with
  | nil => intro i _; exact ⟨fun k hk => (by cases hk), rfl⟩
  | cons inst insts ih =>
      intro i h
      obtain ⟨hn, hc⟩ := ih (i := i + 1) fun {j u} hj => by
        have hu : (inst :: insts)[j + 1]? = some u := by simpa using hj
        have := h hu
        rwa [← Nat.add_assoc, Nat.add_right_comm] at this
      simp only [forks, forkCopies, List.filterMap_cons, forkCopy?]
      rcases hact : actionOf d inst with e | a
      · exact ⟨hn, hc⟩
      · cases a with
        | fork t =>
            have h0 : c.tcInstances[i]? = some inst := by
              have h0 : (inst :: insts)[0]? = some inst := rfl
              have := h h0
              rwa [outcome_of_fork hact] at this
            refine ⟨List.forall_mem_cons.mpr ⟨⟨inst, h0, hact⟩, hn⟩, ?_⟩
            simp only [copies, List.map_cons, List.getD_eq_getElem?_getD, h0]
            exact congrArg _ hc
        | update t => exact ⟨hn, hc⟩
        | join t => exact ⟨hn, hc⟩
        | ignore => exact ⟨hn, hc⟩
        | fail => exact ⟨hn, hc⟩

theorem scanned_noted (m : Nat) :
    Noted d (scanned d c m) (forks d 0 (c.tcInstances.take m)) ∧
      copies d (scanned d c m) (forks d 0 (c.tcInstances.take m)) =
        forkCopies d (c.tcInstances.take m) := by
  refine forks_noted fun {j inst} hj => ?_
  have hlt : j < m := by
    by_contra hge
    rw [List.getElem?_take, if_neg hge] at hj
    cases hj
  rw [List.getElem?_take_of_lt hlt] at hj
  rw [Nat.zero_add, scanned_slot hj, if_pos hlt]

/-- The scan of `c` can get as far as slot `m`. -/
structure Reach (d : Delivery) (c : Class) (m : Nat) : Prop where
  le : m ≤ c.tcLimit
  acts : ∀ inst ∈ c.tcInstances.take m, ∃ a, actionOf d inst = .ok a
  go : 0 < m → 0 < ((c.tcLimit : Int) - c.tcFree).bmod (2 ^ 32)
  room : (forkCopies d (c.tcInstances.take m)).length ≤ d.maxClones

/-- The three ways the scan and the clone loop end: no room to note a clone, no
room to make one, or all done. -/
inductive Delivered (d : Delivery) (c : Class) (evs : List Event) (m : Nat) :
    Class → List Event → Prop
  | full {inst : Instance} (slot : c.tcInstances[m]? = some inst) (fork : isFork d inst = true)
      (room : d.maxClones ≤ (forkCopies d (c.tcInstances.take m)).length) :
      Delivered d c evs m (scanned d c m)
        (evs ++ (slotEvents d 0 (c.tcInstances.take m) ++
          [.err d.cls d.symbol .enomem .tooManyClones]))
  | cloned {c' : Class} {n : Nat} {new : List Event}
      (stop : m = c.tcLimit ∨
        ((c.tcLimit : Int) - c.tcFree).bmod (2 ^ 32) ≤ ((c.tcInstances.take m).countP (handled d) : Nat))
      (grown : Grown (scanned d c m) ((forkCopies d (c.tcInstances.take m)).take n) c')
      (short : n < (forkCopies d (c.tcInstances.take m)).length) (room : c'.tcFree = 0)
      (quiet : ∀ ev ∈ new, ev.ofClone = true) :
      Delivered d c evs m c' (evs ++ (slotEvents d 0 (c.tcInstances.take m) ++ new))
  | done {c' : Class} {new : List Event}
      (stop : m = c.tcLimit ∨
        ((c.tcLimit : Int) - c.tcFree).bmod (2 ^ 32) ≤ ((c.tcInstances.take m).countP (handled d) : Nat))
      (grown : Grown (scanned d c m) (forkCopies d (c.tcInstances.take m)) c')
      (quiet : ∀ ev ∈ new, ev.ofClone = true) :
      Delivered d c evs m
        (if (c.tcInstances.take m).any (cleansUp d) then classReset c' else c')
        (evs ++ (slotEvents d 0 (c.tcInstances.take m) ++ (new ++
          if (c.tcInstances.take m).any (advances d) then []
          else [.noInstance d.cls d.symbol d.pattern])))

/-- What holds of the notifications about each instance holds of all of them. -/
theorem slotEvents_forall {Q : Event → Prop} {insts : List Instance}
    (h : ∀ i inst, ∀ ev ∈ instEvents d i inst, Q ev) :
    ∀ {i : Nat}, ∀ ev ∈ slotEvents d i insts, Q ev := by
  induction insts with
  | nil => intro i ev hev; cases hev
  | cons inst insts ih =>
      intro i ev hev
      rcases List.mem_append.mp hev with hev | hev
      · exact h i inst ev hev
      · exact ih ev hev

theorem instEvents_calm (i : Nat) (inst : Instance) :
    ∀ ev ∈ instEvents d i inst, ev.isErr = false := by
  intro ev hev
  rcases instEvents_cases hev with ⟨_, rfl⟩ | ⟨t, _, rfl | rfl⟩
  · rfl
  · rfl
  · rfl

/-- The two ways a delivery ends with an error report. -/
inductive Stopped (d : Delivery) (c : Class) (m : Nat) : Class → Prop
  | full {inst : Instance} (slot : c.tcInstances[m]? = some inst) (fork : isFork d inst = true)
      (room : d.maxClones ≤ (forkCopies d (c.tcInstances.take m)).length) :
      Stopped d c m (scanned d c m)
  | cloned {c' : Class} {n : Nat}
      (stop : m = c.tcLimit ∨
        ((c.tcLimit : Int) - c.tcFree).bmod (2 ^ 32) ≤ ((c.tcInstances.take m).countP (handled d) : Nat))
      (grown : Grown (scanned d c m) ((forkCopies d (c.tcInstances.take m)).take n) c')
      (short : n < (forkCopies d (c.tcInstances.take m)).length) (room : c'.tcFree = 0) :
      Stopped d c m c'

/-- How many slots the scan of a class handles. -/
def rounds (d : Delivery) (c : Class) (evs : List Event) : Nat :=
  scanRounds d (List.range c.tcLimit) (Scan.start c evs)

/-- What follows the scan. -/
def finish (d : Delivery) (c : Class) (s : Scan) : Except Abort (Class × List Event) :=
  let c₁ := { c with tcInstances := s.insts }
  if s.returned then .ok (c₁, s.evs)
  else
    match moveClones d s.clones c₁ s.evs with
    | .error a => .error a
    | .ok r =>
        if r.returned then .ok (r.cls, r.evs)
        else
          .ok (if s.cleanup then classReset r.cls else r.cls,
            if s.matched then r.evs else r.evs ++ [.noInstance d.cls d.symbol d.pattern])

theorem deliver_eq (evs : List Event) : deliver d c evs =
    match scanLoop d (List.range c.tcLimit) (Scan.start c evs) with
    | .error a => .error a
    | .ok s => finish d c s := rfl

/-- How a delivery ends, and that one that gets to its end reports no error; where the scan
begins, `expected` may be anything. -/
theorem finish_ends {evs evs' : List Event} {c' : Class} {s : Scan} {e : Int} {m : Nat}
    (hm : Scanned d [] c.tcInstances { Scan.start c evs with expected := e } m s)
    (hstop : s.returned = false → m = c.tcLimit ∨
      ((c.tcLimit : Int) - c.tcFree).bmod (2 ^ 32) ≤ ((c.tcInstances.take m).countP (handled d) : Nat))
    (h : finish d c s = .ok (c', evs')) :
    Delivered d c evs m c' evs' ∧
      (Stopped d c m c' ∨ ∀ ev ∈ evs', ev.isErr = true → ev ∈ evs) := by
  have hins : { c with tcInstances := s.insts } = scanned d c m := by
    rw [hm.insts]; rfl
  have hcl : s.clones = forks d 0 (c.tcInstances.take m) := by rw [hm.clones]; rfl
  have hevs : s.evs = evs ++ (slotEvents d 0 (c.tcInstances.take m) ++
      if s.returned then [.err d.cls d.symbol .enomem .tooManyClones] else []) := hm.evs
  obtain ⟨hnoted, hcopies⟩ := scanned_noted (d := d) (c := c) m
  rw [← hcl] at hnoted hcopies
  have hlen : s.clones.length = (forkCopies d (c.tcInstances.take m)).length := by
    rw [← hcopies, copies, List.length_map]
  simp only [finish, hins] at h
  rcases hm.stop with ⟨hr, inst, hslot, hfork, hfull⟩ | ⟨hr, _⟩
  · rw [if_pos hr] at h
    cases h
    rw [hevs, if_pos hr]
    exact ⟨.full hslot hfork (hlen ▸ hfull), .inl (.full hslot hfork (hlen ▸ hfull))⟩
  · have hstop := hstop hr
    rw [if_neg (by simp [hr])] at h
    have hevs : s.evs = evs ++ slotEvents d 0 (c.tcInstances.take m) := by
      rw [hevs]; simp [hr]
    split at h
    · cases h
    · rename_i r hclone
      obtain ⟨n, hn⟩ := moveClones_spec hnoted hclone
      obtain ⟨new, hnew, hquiet⟩ := hn.evs
      have hgrown := hn.grown
      rw [copies, List.map_take] at hgrown
      change Grown _ ((copies d (scanned d c m) s.clones).take n) _ at hgrown
      rw [hcopies] at hgrown
      rw [hevs, List.append_assoc] at hnew
      split at h
      · rename_i hret
        cases h
        rw [hnew]
        obtain ⟨hlt, hfree⟩ := hn.full hret
        exact ⟨.cloned hstop hgrown (hlen ▸ hlt) hfree hquiet,
          .inl (.cloned hstop hgrown (hlen ▸ hlt) hfree)⟩
      · rename_i hret
        rw [hn.done (by simpa using hret), hlen, List.take_length] at hgrown
        cases h
        have hcu : s.cleanup = (c.tcInstances.take m).any (cleansUp d) := hm.cleanup
        have hma : s.matched = (c.tcInstances.take m).any (advances d) := hm.matched
        have hev' : (if s.matched then r.evs
            else r.evs ++ [.noInstance d.cls d.symbol d.pattern]) =
            evs ++ (slotEvents d 0 (c.tcInstances.take m) ++ (new ++
              if (c.tcInstances.take m).any (advances d) then []
              else [.noInstance d.cls d.symbol d.pattern])) := by
          rw [hnew, hma]
          split <;> simp
        refine ⟨?_, .inr fun ev hev herr => ?_⟩
        · rw [hcu, hev']
          exact .done hstop hgrown hquiet
        · have hev : ev ∈ r.evs := by
            split at hev
            · exact hev
            · rcases List.mem_append.mp hev with hev | hev
              · exact hev
              · cases List.mem_singleton.mp hev
                cases herr
          have hev := moveClones_calm hclone (by simpa using hret) ev hev herr
          rw [hevs] at hev
          rcases List.mem_append.mp hev with hev | hev
          · exact hev
          · rw [slotEvents_forall instEvents_calm ev hev] at herr
            cases herr

theorem deliver_ends {evs evs' : List Event} {c' : Class}
    (h : deliver d c evs = .ok (c', evs')) :
    Reach d c (rounds d c evs) ∧ Delivered d c evs (rounds d c evs) c' evs' ∧
      (Stopped d c (rounds d c evs) c' ∨ ∀ ev ∈ evs', ev.isErr = true → ev ∈ evs) := by
  rw [deliver_eq] at h
  split at h
  · cases h
  · rename_i s hs
    have hm : Scanned d [] c.tcInstances (Scan.start c evs) (rounds d c evs) s := scan_spec hs
    generalize rounds d c evs = m at hm ⊢
    have hroom : (forkCopies d (c.tcInstances.take m)).length ≤ d.maxClones := by
      rw [← (scanned_noted (d := d) (c := c) m).2, copies, List.length_map]
      have hclones : s.clones = forks d 0 (c.tcInstances.take m) := by rw [hm.clones]; rfl
      exact hclones ▸ hm.room (Nat.zero_le _)
    refine ⟨⟨hm.le, hm.acts, hm.go, hroom⟩, finish_ends hm (fun hr => ?_) h⟩
    rcases hm.stop with ⟨hreturned, _⟩ | ⟨_, hstop⟩
    · rw [hr] at hreturned
      cases hreturned
    · exact hstop

theorem deliver_spec {evs evs' : List Event} {c' : Class}
    (h : deliver d c evs = .ok (c', evs')) :
    ∃ m, Reach d c m ∧ Delivered d c evs m c' evs' := by
  obtain ⟨hreach, hd, _⟩ := deliver_ends h
  exact ⟨_, hreach, hd⟩

end Deliver

/-! ## The whole update -/

section Update
variable {P : Program} {autom : Automaton} {cls symbol : Nat} {pattern : Key} {c c' : Class}
  {ls ls' : LifetimeState}

/-- How the initialisation part ends: nothing to initialise, late initialisation
that fails after creating `n` instances, or late initialisation that makes all
of them and registers the class. -/
inductive Prepares (autom : Automaton) (cls symbol : Nat) (c : Class) (ls : LifetimeState) :
    Prepared → Prop
  | ready (used : c.tcLimit ≠ c.tcFree) : Prepares autom cls symbol c ls (.go c ls [])
  | failed {c' : Class} {n : Nat} {e : Err} {msg : Msg} (empty : c.tcLimit = c.tcFree)
      (le : n ≤ (initHits autom).length)
      (grown : Grown c (((initHits autom).take n).map initInstance) c')
      (states : ∀ t ∈ (initHits autom).take n, t.toState ≠ 0)
      (stop : n = 0 ∨ ∃ t, (initHits autom)[n]? = some t ∧ (t.toState = 0 ∨ c'.tcFree = 0))
      (text : msg = .failedToInitialise ∨ msg = .noInitTransition) :
      Prepares autom cls symbol c ls (.returned c' [.err cls symbol e msg])
  | init {c' : Class} {ls' : LifetimeState} {slot : Nat} {inst : Instance}
      (empty : c.tcLimit = c.tcFree) (hits : initHits autom ≠ [])
      (grown : Grown c ((initHits autom).map initInstance) c')
      (states : ∀ t ∈ initHits autom, t.toState ≠ 0) (reg : register ls cls = .ok ls') :
      Prepares autom cls symbol c ls (.go c' ls' [.newInstance cls slot inst])

theorem prepare_spec {p : Prepared} (h : prepare autom cls symbol c ls = .ok p) :
    Prepares autom cls symbol c ls p := by
  unfold prepare at h
  split at h
  · rename_i hempty
    split at h
    · cases h
    · rename_i c' _ e hl
      cases h
      obtain ⟨n, hn⟩ := lateInit_spec hl
      exact .failed hempty hn.le hn.grown hn.states (Or.inr (hn.err_some (by simp))) (Or.inl rfl)
    · rename_i c' hl
      cases h
      obtain ⟨n, hn⟩ := lateInit_spec hl
      exact .failed hempty hn.le hn.grown hn.states (Or.inl (hn.inst_none rfl)) (Or.inr rfl)
    · rename_i c' slot hl
      obtain ⟨n, hn⟩ := lateInit_spec hl
      have hlen := hn.err_none rfl
      have hgrown := hn.grown
      have hstates := hn.states
      rw [hlen, List.take_length] at hgrown hstates
      have hhits : initHits autom ≠ [] := by
        intro hnil
        have h0 : n = 0 := by rw [hlen, hnil]; rfl
        exact absurd (hn.inst_zero h0) (by simp)
      dsimp only at h
      split at h
      · split at h
        · cases h
        · rename_i ls' hreg
          cases h
          exact .init hempty hhits hgrown hstates hreg
      · cases h
  · rename_i hused
    cases h
    exact .ready hused

/-- What `tesla_update_class_state` does to a class whose lifetime has begun. -/
inductive Updated (P : Program) (autom : Automaton) (cls symbol : Nat) (pattern : Key)
    (c : Class) (ls : LifetimeState) : Class → LifetimeState → List Event → Prop
  | returned {c' : Class} {evs : List Event}
      (prepares : Prepares autom cls symbol c ls (.returned c' evs)) :
      Updated P autom cls symbol pattern c ls c' ls evs
  | delivered {c₁ c' : Class} {ls' : LifetimeState} {evs evs' : List Event}
      {ts : List Transition} {m : Nat}
      (prepares : Prepares autom cls symbol c ls (.go c₁ ls' evs))
      (onSymbol : autom.taTransitions[symbol]? = some ts)
      (reach : Reach (delivery P cls symbol pattern ts c.tcFree) c₁ m)
      (delivered : Delivered (delivery P cls symbol pattern ts c.tcFree) c₁ evs m c' evs') :
      Updated P autom cls symbol pattern c ls c' ls' evs'

theorem updateFound_spec {evs : List Event}
    (h : updateFound P autom cls symbol pattern c ls = .ok (c', ls', evs)) :
    Updated P autom cls symbol pattern c ls c' ls' evs := by
  unfold updateFound at h
  split at h
  · cases h
  · rename_i hp
    cases h
    exact .returned (prepare_spec hp)
  · rename_i hp
    split at h
    · cases h
    · rename_i ts hts
      split at h
      · cases h
      · split at h
        · cases h
        · split at h
          · cases h
          · rename_i hd
            cases h
            obtain ⟨m, hreach, hm⟩ := deliver_spec hd
            exact .delivered (prepare_spec hp) hts hreach hm

theorem Delivered.tcAutomaton {d : Delivery} {m : Nat} {evs evs' : List Event}
    (h : Delivered d c evs m c' evs') : c'.tcAutomaton = c.tcAutomaton := by
  cases h with
  | full => rfl
  | cloned _ hg => exact hg.tcAutomaton
  | done _ hg =>
      split
      · exact hg.tcAutomaton
      · exact hg.tcAutomaton

theorem Updated.tcAutomaton {evs : List Event}
    (h : Updated P autom cls symbol pattern c ls c' ls' evs) :
    c'.tcAutomaton = c.tcAutomaton := by
  cases h with
  | returned hp => cases hp with
    | failed _ _ hg => exact hg.tcAutomaton
  | delivered hp _ _ hd => cases hp with
    | ready => exact hd.tcAutomaton
    | init _ _ hg => exact hd.tcAutomaton.trans hg.tcAutomaton

theorem Delivered.tcLimit {d : Delivery} {m : Nat} {evs evs' : List Event}
    (h : Delivered d c evs m c' evs') : c'.tcLimit = c.tcLimit := by
  cases h with
  | full => exact scanned_tcLimit m
  | cloned _ hg => exact hg.tcLimit.trans (scanned_tcLimit m)
  | done _ hg =>
      split
      · exact (classReset_tcLimit _).trans (hg.tcLimit.trans (scanned_tcLimit m))
      · exact hg.tcLimit.trans (scanned_tcLimit m)

theorem Updated.tcLimit {evs : List Event}
    (h : Updated P autom cls symbol pattern c ls c' ls' evs) : c'.tcLimit = c.tcLimit := by
  cases h with
  | returned hp => cases hp with
    | failed _ _ hg => exact hg.tcLimit
  | delivered hp _ _ hd => cases hp with
    | ready => exact hd.tcLimit
    | init _ _ hg => exact hd.tcLimit.trans hg.tcLimit

/-- `tesla_update_class_state` touches its class and the class's lifetime, or,
when the lifetime is not known, nothing. -/
theorem updateClassState_spec {s s' : Store} {evs : List Event}
    (h : updateClassState P cls symbol pattern s = .ok (s', evs)) :
    ∃ c a, s.tsClasses[cls]? = some c ∧ c.tcAutomaton = some a ∧
      ((s.findLifetime (P.automaton a).taLifetime = none ∧ s' = s ∧
          evs = [.ignored cls symbol pattern]) ∨
        ∃ li ls c' ls', s.findLifetime (P.automaton a).taLifetime = some li ∧
          s.tsLifetimes[li]? = some ls ∧
          Updated P (P.automaton a) cls symbol pattern c ls c' ls' evs ∧
          s' = ⟨s.tsClasses.set cls c', s.tsLifetimes.set li ls'⟩) := by
  unfold updateClassState at h
  split at h
  · cases h
  · rename_i c hc
    split at h
    · cases h
    · rename_i a ha
      refine ⟨c, a, hc, ha, ?_⟩
      dsimp only at h
      split at h
      · rename_i hf
        cases h
        exact Or.inl ⟨hf, rfl, rfl⟩
      · rename_i li hli
        split at h
        · cases h
        · rename_i ls hls
          split at h
          · cases h
          · rename_i c' ls' evs' hu
            cases h
            exact Or.inr ⟨li, ls, c', ls', hli, hls, updateFound_spec hu, rfl⟩

/-! ## Failing assertions -/

theorem instanceNew_abort {name : Key} {state : Nat} {a : Abort}
    (h : instanceNew c name state = .error (.abort a)) : a = .noFreeInstance := by
  rcases instanceNew_error h with ⟨h', _⟩ | ⟨h', _⟩ | ⟨h', _⟩ <;> cases h'
  rfl

theorem initOuter_error {fuel i : Nat} {a : Abort} : ∀ {c : Class} {inst : Option Nat},
    initOuter autom fuel i c inst = .error a → a = .noFreeInstance := by
  induction fuel generalizing i with
  | zero => intro c inst h; cases h
  | succ fuel ih =>
      intro c inst h
      simp only [initOuter] at h
      split at h
      · cases h
      · split at h
        · exact ih h
        · split at h
          · exact ih h
          · cases h
          · rename_i hnew
            cases h
            exact instanceNew_abort hnew

theorem moveClones_error {d : Delivery} {ks : List Clone} {a : Abort} :
    ∀ {c : Class} {evs : List Event}, moveClones d ks c evs = .error a →
      a = .noFreeInstance := by
  induction ks with
  | nil => intro c evs h; cases h
  | cons k ks ih =>
      intro c evs h
      simp only [moveClones] at h
      split at h
      · rename_i hnew
        cases h
        exact instanceNew_abort hnew
      · cases h
      · split at h
        · exact ih h
        · cases h

theorem deliver_aborts {d : Delivery} {evs : List Event} {a : Abort}
    (h : deliver d c evs = .error a) :
    (a = .joinTarget ∨ ∃ inst ∈ c.tcInstances, actionOf d inst = .error a) ∨
      ∃ m ks evs', moveClones d ks (scanned d c m) evs' = .error a := by
  rw [deliver_eq] at h
  split at h
  · rename_i hs
    cases h
    rw [List.range_eq_range'] at hs
    have hins : (Scan.start c evs).insts = [] ++ c.tcInstances := rfl
    exact .inl (scanLoop_error hins hs)
  · rename_i s hs
    have hinsts : s.insts = (scanned d c _).tcInstances := (scan_spec hs).insts
    rw [finish] at h
    simp only [hinsts] at h
    split at h
    · cases h
    · split at h
      · rename_i hclones
        cases h
        exact .inr ⟨_, _, _, hclones⟩
      · split at h <;> cases h

theorem deliver_error {d : Delivery} {evs : List Event} {a : Abort}
    (h : deliver d c evs = .error a) :
    a = .joinTarget ∨ a = .noFreeInstance ∨ ∃ inst ∈ c.tcInstances, actionOf d inst = .error a := by
  rcases deliver_aborts h with (hjoin | hact) | ⟨_, _, _, hclones⟩
  · exact .inl hjoin
  · exact .inr (.inr hact)
  · exact .inr (.inl (moveClones_error hclones))

/-- The assertions of `tesla_update_class_state` and of what it calls, but for
the one of `tesla_action`. -/
def Abort.ofUpdate : Abort → Bool
  | .noFreeInstance | .inactiveNewInstance | .noTransitions | .tooManyTransitions
  | .dynCapacity | .joinTarget | .wildPointer => true
  | _ => false

theorem prepare_aborts {a : Abort} (h : prepare autom cls symbol c ls = .error a) :
    lateInit autom c = .error a ∨ a = .dynCapacity ∨ a = .inactiveNewInstance := by
  rw [prepare] at h
  split at h
  · split at h
    · next hl =>
      cases h
      exact .inl hl
    · cases h
    · cases h
    · dsimp only at h
      split at h
      · split at h
        · next hreg =>
          cases h
          rw [register] at hreg
          split at hreg
          · cases hreg
          · dsimp only at hreg
            split at hreg
            · cases hreg
            · cases hreg
              exact .inr (.inl rfl)
        · cases h
      · cases h
        exact .inr (.inr rfl)
  · cases h

theorem prepare_error {a : Abort} (h : prepare autom cls symbol c ls = .error a) :
    a.ofUpdate = true := by
  rcases prepare_aborts h with hl | rfl | rfl
  · cases initOuter_error hl
    rfl
  · rfl
  · rfl

/-- Where an update fails an assertion. -/
theorem updateFound_aborts {a : Abort}
    (h : updateFound P autom cls symbol pattern c ls = .error a) :
    prepare autom cls symbol c ls = .error a ∨
      (a = .wildPointer ∨ a = .noTransitions ∨ a = .tooManyTransitions) ∨
      ∃ c₁ ls' evs ts, prepare autom cls symbol c ls = .ok (.go c₁ ls' evs) ∧
        autom.taTransitions[symbol]? = some ts ∧
        deliver (delivery P cls symbol pattern ts c.tcFree) c₁ evs = .error a := by
  rw [updateFound] at h
  split at h
  · next hp =>
    cases h
    exact .inl hp
  · cases h
  · next c₁ ls' evs hp =>
    split at h
    · cases h
      exact .inr (.inl (.inl rfl))
    · next ts hts =>
      split at h
      · cases h
        exact .inr (.inl (.inr (.inl rfl)))
      · split at h
        · cases h
          exact .inr (.inl (.inr (.inr rfl)))
        · split at h
          · next hd =>
            cases h
            exact .inr (.inr ⟨c₁, ls', evs, ts, hp, hts, hd⟩)
          · cases h

/-- Besides the assertions of the update itself there is the one of
`tesla_action`, for an instance of the class as late initialisation leaves it. -/
theorem updateFound_error {a : Abort} (h : updateFound P autom cls symbol pattern c ls = .error a) :
    a.ofUpdate = true ∨ ∃ c₁ ls' evs ts, Prepares autom cls symbol c ls (.go c₁ ls' evs) ∧
      autom.taTransitions[symbol]? = some ts ∧
      ∃ inst ∈ c₁.tcInstances,
        actionOf (delivery P cls symbol pattern ts c.tcFree) inst = .error a := by
  rcases updateFound_aborts h with hp | hown | ⟨c₁, ls', evs, ts, hp, hts, hd⟩
  · exact .inl (prepare_error hp)
  · rcases hown with rfl | rfl | rfl <;> exact .inl rfl
  · obtain rfl | rfl | hact := deliver_error hd
    · exact .inl rfl
    · exact .inl rfl
    · exact .inr ⟨c₁, ls', evs, ts, prepare_spec hp, hts, hact⟩

theorem updateFound_instanceMask
    (h : updateFound P autom cls symbol pattern c ls = .error .instanceMask) :
    ∃ c₁ ls' evs ts, Prepares autom cls symbol c ls (.go c₁ ls' evs) ∧
      autom.taTransitions[symbol]? = some ts ∧
      ∃ inst ∈ c₁.tcInstances,
        actionOf (delivery P cls symbol pattern ts c.tcFree) inst = .error .instanceMask := by
  obtain h | h := updateFound_error h
  · cases h
  · exact h

/-! ## Notifications -/

/-- The notifications a delivery can make: all but those of the calls
themselves, and but for the failure to unite two keys. -/
def Event.ofUpdate : Event → Bool
  | .sunrise _ | .sunset _ | .ignored .. | .err _ _ _ .failedToUnion => false
  | _ => true

theorem instEvents_ofUpdate {d : Delivery} (i : Nat) (inst : Instance) :
    ∀ ev ∈ instEvents d i inst, ev.ofUpdate = true := by
  intro ev hev
  rcases instEvents_cases hev with ⟨_, rfl⟩ | ⟨t, _, rfl | rfl⟩
  · rfl
  · rfl
  · rfl

theorem ofUpdate_of_ofClone {ev : Event} (h : ev.ofClone = true) : ev.ofUpdate = true := by
  cases ev with
  | err cls symbol e msg => cases msg <;> first | rfl | cases h
  | clone => rfl
  | accept => rfl
  | sunrise | sunset | newInstance | transition | noInstance | badTransition | ignored => cases h

theorem Delivered.ofUpdate {d : Delivery} {m : Nat} {evs evs' : List Event}
    (hd : Delivered d c evs m c' evs') (h : ∀ ev ∈ evs, ev.ofUpdate = true) :
    ∀ ev ∈ evs', ev.ofUpdate = true := by
  have hslots : ∀ ev ∈ slotEvents d 0 (c.tcInstances.take m), ev.ofUpdate = true :=
    slotEvents_forall instEvents_ofUpdate
  cases hd with
  | full =>
      simp only [List.forall_mem_append]
      exact ⟨h, hslots, fun ev hev => by cases List.mem_singleton.mp hev; rfl⟩
  | cloned _ _ _ _ hq =>
      simp only [List.forall_mem_append]
      exact ⟨h, hslots, fun ev hev => ofUpdate_of_ofClone (hq ev hev)⟩
  | done _ _ hq =>
      simp only [List.forall_mem_append]
      refine ⟨h, hslots, fun ev hev => ofUpdate_of_ofClone (hq ev hev), fun ev hev => ?_⟩
      split at hev
      · cases hev
      · cases List.mem_singleton.mp hev; rfl

/-- A delivery makes its own notifications only; the branch `"failed to union
keys"` is never taken. -/
theorem Updated.ofUpdate {evs : List Event}
    (h : Updated P autom cls symbol pattern c ls c' ls' evs) :
    ∀ ev ∈ evs, ev.ofUpdate = true := by
  cases h with
  | returned hp => cases hp with
    | failed _ _ _ _ _ htext =>
        intro ev hev
        cases List.mem_singleton.mp hev
        rcases htext with rfl | rfl <;> rfl
  | delivered hp _ _ hd => cases hp with
    | ready => exact hd.ofUpdate fun ev hev => by cases hev
    | init => exact hd.ofUpdate fun ev hev => by cases List.mem_singleton.mp hev; rfl

end Update

end Tesla.Runtime
