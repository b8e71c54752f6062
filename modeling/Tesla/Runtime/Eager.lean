/-
# `Tesla.Runtime.Eager` — a run-time without late initialisation

The library creates the first instance of a class when the first event comes
and "pretends" that the init transition was taken before.  The reference it is
measured against takes the transition when it happens:

    tesla_sunrise              creates the instance and registers the class     `eagerSunrise`
    tesla_update_class_state   delivers events to the instances there are       `eagerFound`

and is the library in everything else: `tesla_update_class_state` and
`tesla_sunset` are written here for an arbitrary delivery, and with the
library's own they are the library's (`updateClassState_eq`, `sunset_eq`).

Two things are compared: the failures reported, and the stores left.  On a
class in use there is nothing to compare (`updateFound_eq_eager`).  On a class
that holds the first instance only, the one difference is the room for clones,
which the library measures before it creates the instance; it does not show
(`deliver_first`).
-/
import Tesla.Runtime.Frames

namespace Tesla.Runtime

open Lib

/-! ## What is observed -/

/-- `ev_bad_transition` and `ev_no_instance`. -/
def Event.isFailure : Event → Bool
  | .badTransition .. | .noInstance .. => true
  | _ => false

def failures (evs : List Event) : List Event := evs.filter Event.isFailure

@[simp] theorem failures_nil : failures [] = [] := rfl

@[simp] theorem failures_append (evs evs' : List Event) :
    failures (evs ++ evs') = failures evs ++ failures evs' := List.filter_append ..

/-- The outcome of a call, with the failures only of its notifications. -/
def observe {σ : Type} (r : Except Abort (σ × List Event)) : Except Abort (σ × List Event) :=
  r.map fun x => (x.1, failures x.2)

section Observe
variable {σ : Type} {x y : Except Abort (σ × List Event)}

@[simp] theorem observe_error {a : Abort} :
    observe (.error a : Except Abort (σ × List Event)) = .error a := rfl

@[simp] theorem observe_ok {s : σ} {evs : List Event} :
    observe (.ok (s, evs) : Except Abort (σ × List Event)) = .ok (s, failures evs) := rfl

/-- Outcomes that look the same fail alike or return alike. -/
theorem observe_cases (h : observe x = observe y) :
    (∃ a, x = .error a ∧ y = .error a) ∨
      ∃ s evs evs', x = .ok (s, evs) ∧ y = .ok (s, evs') ∧ failures evs = failures evs' := by
  cases x with
  | error a =>
    cases y with
    | error b =>
      obtain rfl := Except.error.inj h
      exact .inl ⟨a, rfl, rfl⟩
    | ok r => cases h
  | ok r =>
    cases y with
    | error b => cases h
    | ok r' =>
      obtain ⟨hs, hevs⟩ := Prod.mk.inj (Except.ok.inj h)
      refine .inr ⟨r.1, r.2, r'.2, rfl, ?_, hevs⟩
      rw [hs]

end Observe

/-! ## The reference -/

/-- What `tesla_update_class_state` does once it has found the lifetime. -/
abbrev Found := Automaton → Nat → Nat → Key → Class → LifetimeState →
  Except Abort (Class × LifetimeState × List Event)

/-- An event for a class whose instances are there already. -/
def eagerClass (P : Program) (autom : Automaton) (cls symbol : Nat) (pattern : Key) (c : Class) :
    Except Abort (Class × List Event) :=
  match autom.taTransitions[symbol]? with
  | none => .error .wildPointer
  | some ts =>
      if ts.length = 0 then .error .noTransitions
      else if 10000 ≤ ts.length then .error .tooManyTransitions
      else deliver (delivery P cls symbol pattern ts c.tcFree) c []

/-- `tesla_update_class_state` without late initialisation, once it has found the
lifetime. -/
def eagerFound (P : Program) : Found := fun autom cls symbol pattern c ls =>
  (eagerClass P autom cls symbol pattern c).map fun r => (r.1, ls, r.2)

/-- `tesla_update_class_state`, delivering through `found`. -/
def updateClassWith (P : Program) (found : Found) (cls symbol : Nat) (pattern : Key) (s : Store) :
    Except Abort (Store × List Event) :=
  match s.tsClasses[cls]? with
  | none => .error .wildPointer
  | some c =>
      match c.tcAutomaton with
      | none => .error .wildPointer
      | some a =>
          match s.findLifetime (P.automaton a).taLifetime with
          | none => .ok (s, [.ignored cls symbol pattern])
          | some li =>
              match s.tsLifetimes[li]? with
              | none => .error .wildPointer
              | some ls =>
                  match found (P.automaton a) cls symbol pattern c ls with
                  | .error e => .error e
                  | .ok (c', ls', evs) =>
                      .ok (⟨s.tsClasses.set cls c', s.tsLifetimes.set li ls'⟩, evs)

theorem updateClassState_eq (P : Program) :
    updateClassState P = updateClassWith P (updateFound P) := rfl

/-- The event `tesla_sunset` sends to a registered class. -/
def cleanupWith (P : Program) (found : Found) (key : Key) (cls : Nat) (s : Store) :
    Except Abort (Store × List Event) :=
  match (s.tsClasses[cls]?).bind Class.tcAutomaton with
  | none => .error .wildPointer
  | some a => updateClassWith P found cls (P.automaton a).taCleanupSymbol key s

/-- A loop of `tesla_sunset`, cleaning up through `clean`. -/
def sunsetLoopWith (clean : Nat → Store → Except Abort (Store × List Event)) (li : Nat)
    (slots : LifetimeState → List (Option Nat)) :
    List Nat → Store → List Event → Except Abort (Store × List Event)
  | [], s, evs => .ok (s, evs)
  | i :: is, s, evs =>
      match (s.tsLifetimes[li]?).bind (fun ls => (slots ls)[i]?.join) with
      | none => .ok (s, evs)
      | some cls =>
          match clean cls s with
          | .error a => .error a
          | .ok (s', evs') => sunsetLoopWith clean li slots is s' (evs ++ evs')

/-- `tesla_sunset`, cleaning up through `clean`. -/
def sunsetWith (clean : Nat → Store → Except Abort (Store × List Event)) (l : Lifetime)
    (s : Store) : Except Abort (Store × List Event) :=
  if s.tsLifetimeCount < s.tsLength then
    match s.findLifetime l with
    | none => .error .sunsetWithoutSunrise
    | some li =>
        match sunsetLoopWith clean li LifetimeState.tlsClasses (List.range staticClasses) s
            [.sunset l] with
        | .error a => .error a
        | .ok (s₁, evs) =>
            let s₂ := s₁.modifyLifetime li LifetimeState.clearStatic
            match sunsetLoopWith clean li LifetimeState.tlsDynClasses
                (List.range (((s₂.tsLifetimes[li]?).map LifetimeState.tlsDynCount).getD 0))
                s₂ evs with
            | .error a => .error a
            | .ok (s₃, evs) => .ok (s₃.modifyLifetime li LifetimeState.clearDynamic, evs)
  else .error .lifetimeTableFull

theorem sunsetLoop_eq (P : Program) (key : Key) (li : Nat)
    (slots : LifetimeState → List (Option Nat)) (is : List Nat) :
    ∀ s evs, sunsetLoop P key li slots is s evs =
      sunsetLoopWith (cleanupClass P key) li slots is s evs := by
  induction is with
  | nil => intro s evs; rfl
  | cons i is ih =>
    intro s evs
    rw [sunsetLoop, sunsetLoopWith]
    cases (s.tsLifetimes[li]?).bind (fun ls => (slots ls)[i]?.join) with
    | none => rfl
    | some cls =>
      cases h : cleanupClass P key cls s with
      | error a => simp only [h]
      | ok r =>
        simp only [h]
        exact ih ..

theorem sunset_eq (P : Program) (l : Lifetime) (junk : Key) (s : Store) :
    sunset P l junk s = sunsetWith (cleanupClass P (emptyKey junk)) l s := by
  rw [sunset, sunsetWith]
  split
  · cases s.findLifetime l with
    | none => rfl
    | some li =>
      simp only [sunsetStatic, sunsetLoop_eq]
      cases sunsetLoopWith (cleanupClass P (emptyKey junk)) li LifetimeState.tlsClasses
          (List.range staticClasses) s [.sunset l] with
      | error a => rfl
      | ok r =>
        simp only [sunsetDynamic, sunsetLoop_eq]
        rfl
  · rfl

/-- The init transition that late initialisation looks for. -/
def initTransition (autom : Automaton) : Option Transition :=
  autom.taTransitions.flatten.find? Transition.init

/-- The instance in the state that the init transition leads to, and the
registration of its class. -/
def createFirst (P : Program) (a : Ptr) (l : Lifetime) (s : Store) : Except Abort Store :=
  match classGet s a, initTransition (P.automaton a), s.findLifetime l with
  | none, _, _ => .error .noClassSlot
  | some (s', cls), some t, some li =>
      match s'.tsClasses[cls]?, s'.tsLifetimes[li]? with
      | some c, some ls =>
          match instanceNew c Key.zero t.toState, register ls cls with
          | .error (.abort e), _ => .error e
          | .error (.err _), _ => .ok s'
          | .ok _, .error e => .error e
          | .ok (c', _), .ok ls' => .ok ⟨s'.tsClasses.set cls c', s'.tsLifetimes.set li ls'⟩
      | _, _ => .error .wildPointer
  | some (s', _), _, _ => .ok s'

/-- `tesla_sunrise` of a run-time that takes the init transition of automaton `a`
when it happens. -/
def eagerSunrise (P : Program) (a : Ptr) (l : Lifetime) (s : Store) :
    Except Abort (Store × List Event) :=
  match sunrise l s with
  | .error e => .error e
  | .ok (s', evs) =>
      if sameLifetime (P.automaton a).taLifetime l then
        match createFirst P a l s' with
        | .error e => .error e
        | .ok s'' => .ok (s'', evs)
      else .ok (s', evs)

/-- A call of the reference, in which automaton `a` is initialised at sunrise. -/
def eagerCall (P : Program) (a : Ptr) (s : Store) : Call → Except Abort (Store × List Event)
  | .sunrise l => eagerSunrise P a l s
  | .updateState autom symbol pattern =>
      match classGet s autom with
      | none => .error .noClassSlot
      | some (s', cls) => updateClassWith P (eagerFound P) cls symbol pattern s'
  | .sunset l junk => sunsetWith (cleanupWith P (eagerFound P) (emptyKey junk)) l s

/-! ## A class in use -/

section InUse
variable {P : Program} {autom : Automaton} {cls symbol : Nat} {pattern key : Key} {c c' : Class}
  {ls ls' : LifetimeState} {s s' : Store} {evs evs' : List Event} {li : Nat}

theorem updateFound_eq_eager (h : c.tcLimit ≠ c.tcFree) :
    updateFound P autom cls symbol pattern c ls = eagerFound P autom cls symbol pattern c ls := by
  rw [updateFound, prepare, if_neg h, eagerFound, eagerClass]
  cases autom.taTransitions[symbol]? with
  | none => rfl
  | some ts =>
    by_cases hlen : ts.length = 0
    · simp only [if_pos hlen]
      rfl
    · by_cases hlong : 10000 ≤ ts.length
      · simp only [if_neg hlen, if_pos hlong]
        rfl
      · simp only [if_neg hlen, if_neg hlong]
        cases deliver (delivery P cls symbol pattern ts c.tcFree) c [] <;> rfl

/-- The class is in use when the event comes. -/
def Visit.Used (v : Visit) : Prop := v.before.tcLimit ≠ v.before.tcFree

instance (v : Visit) : Decidable v.Used := inferInstanceAs (Decidable (_ ≠ _))

theorem updateClass_eq_eager (h : ∀ v ∈ visit P cls symbol pattern s, v.Used) :
    updateClassState P cls symbol pattern s =
      updateClassWith P (eagerFound P) cls symbol pattern s := by
  rw [updateClassState_eq, updateClassWith, updateClassWith]
  rw [visit] at h
  cases hc : s.tsClasses[cls]? with
  | none => rfl
  | some c =>
    simp only [hc] at h ⊢
    cases ha : c.tcAutomaton with
    | none => rfl
    | some a =>
      simp only [ha] at h ⊢
      cases hli : s.findLifetime (P.automaton a).taLifetime with
      | none => rfl
      | some li =>
        simp only [hli, Option.isSome_some, if_true] at h
        have hused : c.tcLimit ≠ c.tcFree := h _ (List.mem_singleton.mpr rfl)
        simp only [updateFound_eq_eager hused]

theorem cleanup_eq_eager (h : ∀ v ∈ cleanupVisit P key cls s, v.Used) :
    cleanupClass P key cls s = cleanupWith P (eagerFound P) key cls s := by
  rw [cleanupClass, cleanupWith]
  rw [cleanupVisit] at h
  cases ha : (s.tsClasses[cls]?).bind Class.tcAutomaton with
  | none => rfl
  | some a =>
    simp only [ha] at h
    exact updateClass_eq_eager h

theorem sunsetLoop_eq_eager {slots : LifetimeState → List (Option Nat)} {is : List Nat} :
    ∀ {s : Store} {evs : List Event}, (∀ v ∈ sunsetVisits P key li slots is s, v.Used) →
      sunsetLoopWith (cleanupClass P key) li slots is s evs =
        sunsetLoopWith (cleanupWith P (eagerFound P) key) li slots is s evs := by
  induction is with
  | nil =>
    intro s evs _
    rfl
  | cons i is ih =>
    intro s evs h
    rw [sunsetLoopWith, sunsetLoopWith]
    rw [sunsetVisits] at h
    cases hcls : (s.tsLifetimes[li]?).bind (fun ls => (slots ls)[i]?.join) with
    | none => rfl
    | some cls =>
      simp only [hcls, List.forall_mem_append] at h
      simp only [← cleanup_eq_eager h.1]
      cases hok : cleanupClass P key cls s with
      | error a => rfl
      | ok r =>
        simp only [hok] at h
        exact ih h.2

/-- The reference makes the same of a call all of whose deliveries are to classes in
use. -/
theorem call_eq_eager {a : Ptr} {k : Call} (hk : ∀ l, k ≠ .sunrise l)
    (h : ∀ v ∈ visits P s k, v.Used) : call P s k = eagerCall P a s k := by
  cases k with
  | sunrise l => exact absurd rfl (hk l)
  | updateState b symbol pattern =>
    rw [call, updateState, eagerCall]
    simp only [visits] at h
    cases hget : classGet s b with
    | none => rfl
    | some r =>
      simp only [hget] at h
      exact updateClass_eq_eager h
  | sunset l junk =>
    rw [call, sunset_eq, eagerCall, sunsetWith, sunsetWith]
    simp only [visits] at h
    split
    · cases hli : s.findLifetime l with
      | none => rfl
      | some li =>
        simp only [hli, List.forall_mem_append] at h
        simp only [sunsetLoop_eq_eager h.1]
        cases hloop : sunsetLoopWith (cleanupWith P (eagerFound P) (emptyKey junk)) li
            LifetimeState.tlsClasses (List.range staticClasses) s [.sunset l] with
        | error a => rfl
        | ok r =>
          have hstatic : sunsetStatic P junk li s [.sunset l] =
              .ok (r.1.modifyLifetime li LifetimeState.clearStatic, r.2) := by
            rw [sunsetStatic, sunsetLoop_eq, sunsetLoop_eq_eager h.1, hloop]
            rfl
          simp only [hstatic] at h
          simp only [sunsetLoop_eq_eager h.2]
    · rfl

end InUse

/-! ## A class with its first instance only -/

section First
variable {d : Delivery} {c : Class} {inst : Instance} {rest : List Instance} {evs evs' : List Event}

theorem scanLoop_inactive {is : List Nat} {s : Scan}
    (h : ∀ i ∈ is, ∀ x, s.insts[i]? = some x → instanceActive x = false) :
    scanLoop d is s = .ok s := by
  induction is with
  | nil => rfl
  | cons i is ih =>
    obtain ⟨hi, his⟩ := List.forall_mem_cons.mp h
    have hslot : scanSlot d i s = .ok s := by
      rw [scanSlot]
      cases hx : s.insts[i]? with
      | none => rfl
      | some x =>
        simp only [action_inactive (hi x hx), applyAction, if_true, Int.sub_zero]
    rw [scanLoop, hslot]
    split
    · exact ih his
    · rfl

theorem scanLoop_done {is : List Nat} {s : Scan} (h : ¬ 0 < s.expected) :
    scanLoop d is s = .ok s := by
  cases is with
  | nil => rfl
  | cons i is =>
    rw [scanLoop, if_neg]
    exact fun hgo => h hgo.1

theorem applyAction_expected {i : Nat} {s s' : Scan} {a : Action}
    (h : applyAction d i inst s a = .ok s') : s'.expected = s.expected := by
  cases a with
  | fail | ignore | update t =>
    cases h
    rfl
  | fork t =>
    rw [applyAction] at h
    split at h <;> cases h <;> rfl
  | join t =>
    rw [applyAction] at h
    split at h
    · cases h
      rfl
    · cases h

/-- The class holds an active instance in its first slot, and no other. -/
structure Class.First (c : Class) (inst : Instance) : Prop where
  instances : ∃ rest, c.tcInstances = inst :: rest ∧ ∀ x ∈ rest, instanceActive x = false
  active : instanceActive inst = true
  free : c.tcFree + 1 = c.tcLimit

theorem Class.First.expected (h : c.First inst) : (Scan.start c evs).expected = 1 := by
  have hfree := h.free
  have hone : ((c.tcLimit : Int) - c.tcFree) = 1 := by omega
  show ((c.tcLimit : Int) - c.tcFree).bmod (2 ^ 32) = 1
  rw [hone]
  decide

/-- The scan once nothing more is expected. -/
def Scan.last (c : Class) (evs : List Event) : Scan := { Scan.start c evs with expected := 0 }

/-- The scan comes down to what happens to the instance. -/
theorem Class.First.scan (h : c.First inst) :
    scanLoop d (List.range c.tcLimit) (Scan.start c evs) =
      match actionOf d inst with
      | .error a => .error a
      | .ok .ignore => .ok (Scan.start c evs)
      | .ok a => applyAction d 0 inst (Scan.last c evs) a := by
  obtain ⟨rest, hinsts, hrest⟩ := h.instances
  have hlen : c.tcLimit = rest.length + 1 := by
    rw [Class.tcLimit, hinsts]
    rfl
  have hfirst : (Scan.start c evs).insts[0]? = some inst := by
    show c.tcInstances[0]? = some inst
    rw [hinsts]
    rfl
  have hgo : 0 < (Scan.start c evs).expected ∧ (Scan.start c evs).returned = false :=
    ⟨by rw [h.expected]; decide, rfl⟩
  rw [hlen, List.range_succ_eq_map, scanLoop, if_pos hgo]
  cases ha : actionOf d inst with
  | error a =>
    have hslot : scanSlot d 0 (Scan.start c evs) = .error a := by
      simp only [scanSlot, hfirst, ha]
    rw [hslot]
  | ok a =>
    have hslot : scanSlot d 0 (Scan.start c evs) = applyAction d 0 inst
        { Scan.start c evs with expected := 1 - (if a = .ignore then 0 else 1) } a := by
      simp only [scanSlot, hfirst, ha, h.expected]
    rw [hslot]
    by_cases hig : a = .ignore
    · subst hig
      have hsame : applyAction d 0 inst { Scan.start c evs with
          expected := 1 - (if Action.ignore = .ignore then 0 else 1) } .ignore =
          .ok (Scan.start c evs) := by
        rw [applyAction, if_pos rfl, Int.sub_zero, ← h.expected (c := c)]
      rw [hsame]
      refine scanLoop_inactive ?_
      intro i hi x hx
      obtain ⟨j, _, rfl⟩ := List.mem_map.mp hi
      change c.tcInstances[j + 1]? = some x at hx
      rw [hinsts, List.getElem?_cons_succ] at hx
      exact hrest x (List.mem_of_getElem? hx)
    · have hlast : ({ Scan.start c evs with expected := 0 } : Scan) = Scan.last c evs := rfl
      rw [if_neg hig, Int.sub_self, hlast]
      cases hs : applyAction d 0 inst (Scan.last c evs) a with
      | error b => cases a <;> first | exact absurd rfl hig | exact hs.symm
      | ok s' =>
        have hdone : ¬ 0 < s'.expected := by
          rw [applyAction_expected hs]
          exact Int.lt_irrefl 0
        simp only [scanLoop_done hdone]
        cases a <;> first | exact absurd rfl hig | exact hs.symm

/-- Without clones, the rest of the delivery. -/
theorem deliver_of_scan {s : Scan} (hs : scanLoop d (List.range c.tcLimit) (Scan.start c evs) = .ok s)
    (hret : s.returned = false) (hclones : s.clones = []) :
    deliver d c evs = .ok
      (if s.cleanup then classReset { c with tcInstances := s.insts }
        else { c with tcInstances := s.insts },
        if s.matched then s.evs else s.evs ++ [.noInstance d.cls d.symbol d.pattern]) := by
  simp only [deliver, hs, hret, hclones, moveClones]
  rfl

theorem Class.First.count (h : c.First inst) : c.active = 1 := by
  obtain ⟨rest, hinsts, hrest⟩ := h.instances
  have hnone : rest.countP instanceActive = 0 := by
    rw [List.countP_eq_zero]
    intro x hx
    rw [hrest x hx]
    exact Bool.false_ne_true
  rw [Class.active, hinsts, List.countP_cons, hnone, if_pos h.active]

/-- The clone loop for the one clone there can be. -/
theorem Class.First.moveClone (h : c.First inst) {t : Transition}
    (ha : actionOf d inst = .ok (.fork t)) :
    ∃ c' returned new, (∀ n e, moveClones { d with maxClones := n } [⟨0, t⟩] c e =
        .ok ⟨c', returned, e ++ new⟩) ∧
      failures new = [] ∧ (c.tcFree = 0 → c' = c ∧ returned = true) := by
  have horig : c.tcInstances.getD 0 Instance.zero = inst := by
    obtain ⟨rest, hinsts, _⟩ := h.instances
    rw [hinsts]
    rfl
  cases hnew : instanceClone c inst with
  | error stop =>
    cases stop with
    | abort a =>
      have hfree := h.free
      obtain ⟨h', _⟩ | ⟨h', _⟩ | ⟨_, hpos, hall⟩ := instanceNew_error hnew
      · cases h'
      · cases h'
      · rw [h.count] at hall
        omega
    | err e =>
      refine ⟨c, true, [.err d.cls d.symbol e .failedToClone], ?_, rfl, fun _ => ⟨rfl, rfl⟩⟩
      intro n e'
      simp only [moveClones, horig, hnew]
  | ok r =>
    have hagree := (keyUnion_success_iff _ _).mpr (fork_agrees ha)
    have hkey : keyUnion inst.tiKey (newName d.pattern t) =
        ((keyUnion inst.tiKey (newName d.pattern t)).1, .success) := by
      rw [← hagree]
    refine ⟨r.1.setInstance r.2 (forkCopy d inst t), false,
      [.clone d.cls 0 r.2 inst (forkCopy d inst t) t] ++
        (if t.cleanup then [.accept d.cls r.2 (forkCopy d inst t)] else []), ?_, ?_, ?_⟩
    · intro n e
      simp only [moveClones, horig, hnew]
      rw [hkey]
      simp only [List.append_assoc]
      rfl
    · cases t.cleanup <;> rfl
    · intro hzero
      have hpos := (instanceNew_ok hnew).2.1
      omega

/-- The delivery of an event on which the instance forks, given room to note it. -/
theorem Class.First.deliver_fork (h : c.First inst) {t : Transition}
    (ha : actionOf d inst = .ok (.fork t)) :
    ∃ c' new, failures new = [] ∧ (c.tcFree = 0 → c' = c) ∧
      ∀ n e, 0 < n → deliver { d with maxClones := n } c e = .ok (c', e ++ new) := by
  obtain ⟨c₁, returned, new, hmove, hquiet, hfull⟩ := h.moveClone ha
  refine ⟨if returned then c₁ else if t.cleanup then classReset c₁ else c₁, new, hquiet, ?_, ?_⟩
  · intro hzero
    obtain ⟨rfl, rfl⟩ := hfull hzero
    rfl
  · intro n e hpos
    have hact : actionOf { d with maxClones := n } inst = .ok (.fork t) := ha
    have hscan : scanLoop { d with maxClones := n } (List.range c.tcLimit) (Scan.start c e) =
        .ok { Scan.last c e with
          clones := [⟨0, t⟩], matched := true, cleanup := false || t.cleanup } := by
      rw [h.scan, hact]
      exact if_neg (Nat.not_le_of_lt hpos)
    have hm : moveClones { d with maxClones := n } [⟨0, t⟩]
        { c with tcInstances := (Scan.last c e).insts } (Scan.last c e).evs =
        .ok ⟨c₁, returned, e ++ new⟩ := hmove n e
    simp only [deliver, hscan, hm]
    cases returned <;> simp [Scan.last, Scan.start]

/-- The room for one clone more does not show: the clone that is noted there finds no
free slot. -/
theorem Class.First.deliver_observe (h : c.First inst) (hevs : failures evs = failures evs') :
    observe (deliver { d with maxClones := c.tcFree + 1 } c evs) =
      observe (deliver { d with maxClones := c.tcFree } c evs') := by
  have hact : ∀ n, actionOf { d with maxClones := n } inst = actionOf d inst := fun _ => rfl
  cases ha : actionOf d inst with
  | error a => simp only [deliver, h.scan, hact, ha, observe_error]
  | ok a =>
    have hscan : ∀ n e, a ≠ .ignore →
        scanLoop { d with maxClones := n } (List.range c.tcLimit) (Scan.start c e) =
          applyAction { d with maxClones := n } 0 inst (Scan.last c e) a := by
      intro n e hne
      rw [h.scan, hact, ha]
      cases a with
      | ignore => exact absurd rfl hne
      | fail | update | fork | join => rfl
    cases a with
    | ignore =>
      have hstart : ∀ n e, scanLoop { d with maxClones := n } (List.range c.tcLimit)
          (Scan.start c e) = .ok (Scan.start c e) := by
        intro n e
        rw [h.scan, hact, ha]
      rw [deliver_of_scan (hstart _ _) rfl rfl, deliver_of_scan (hstart _ _) rfl rfl]
      simp [Scan.start, hevs]
    | fail =>
      rw [deliver_of_scan (hscan _ _ (by simp)) rfl rfl,
        deliver_of_scan (hscan _ _ (by simp)) rfl rfl]
      simp [Scan.last, Scan.start, hevs]
    | update t =>
      rw [deliver_of_scan (hscan _ _ (by simp)) rfl rfl,
        deliver_of_scan (hscan _ _ (by simp)) rfl rfl]
      simp [Scan.last, Scan.start, hevs]
    | join t =>
      cases hany : c.tcInstances.any (fun u => u.tiState == t.toState) with
      | false =>
        have hs : ∀ n e, scanLoop { d with maxClones := n } (List.range c.tcLimit)
            (Scan.start c e) = .error .joinTarget := by
          intro n e
          rw [hscan n e (by simp), applyAction]
          exact if_neg (by rw [Bool.not_eq_true]; exact hany)
        simp only [deliver, hs, observe_error]
      | true =>
        have hs : ∀ n e, scanLoop { d with maxClones := n } (List.range c.tcLimit)
            (Scan.start c e) = .ok { Scan.last c e with
              insts := c.tcInstances.set 0 Instance.zero, cleanup := false || t.cleanup } := by
          intro n e
          rw [hscan n e (by simp), applyAction]
          exact if_pos hany
        rw [deliver_of_scan (hs _ _) rfl rfl, deliver_of_scan (hs _ _) rfl rfl]
        simp [Scan.last, Scan.start, hevs]
    | fork t =>
      obtain ⟨c', new, hquiet, hfull, hdeliver⟩ := h.deliver_fork ha
      rw [hdeliver _ _ (Nat.succ_pos _), observe_ok, failures_append, hquiet, hevs]
      obtain hzero | hpos := Nat.eq_zero_or_pos c.tcFree
      · -- the reference finds no room to note the clone
        rw [hfull hzero, hzero]
        have hs : scanLoop { d with maxClones := 0 } (List.range c.tcLimit)
            (Scan.start c evs') = .ok { Scan.last c evs' with
              returned := true, evs := evs' ++ [.err d.cls d.symbol .enomem .tooManyClones] } := by
          rw [hscan 0 evs' (by simp), applyAction]
          exact if_pos (Nat.le_refl 0)
        simp only [deliver, hs, if_true, observe_ok, failures_append]
        rfl
      · rw [hdeliver _ _ hpos, observe_ok, failures_append, hquiet]

/-- An event that the instance takes is no failure. -/
theorem Class.First.deliver_advances (h : c.First inst) (hadv : advances d inst = true)
    (hroom : d.maxClones = c.tcFree) :
    ∃ c' new, deliver d c [] = .ok (c', new) ∧ failures new = [] := by
  cases ha : actionOf d inst with
  | error a => simp [advances, ha] at hadv
  | ok a =>
    cases a with
    | ignore | fail | join => simp [advances, ha] at hadv
    | update t =>
      have hs : scanLoop d (List.range c.tcLimit) (Scan.start c []) =
          applyAction d 0 inst (Scan.last c []) (.update t) := by
        rw [h.scan, ha]
      refine ⟨_, _, deliver_of_scan hs rfl rfl, ?_⟩
      simp only [Scan.last, Scan.start]
      cases d.haveTransitions <;> cases t.cleanup <;> rfl
    | fork t =>
      obtain ⟨c', new, hquiet, hfull, hdeliver⟩ := h.deliver_fork ha
      have hd : deliver d c [] = deliver { d with maxClones := c.tcFree } c [] := by rw [← hroom]
      obtain hzero | hpos := Nat.eq_zero_or_pos c.tcFree
      · rw [hd]
        have hnone : failures [] = failures [] := rfl
        have hobs := h.deliver_observe (d := d) hnone
        rw [hdeliver _ _ (Nat.succ_pos _)] at hobs
        obtain ⟨_, h', _⟩ | ⟨s, e, e', hok, hok', heq⟩ := observe_cases hobs
        · cases h'
        · obtain ⟨rfl, rfl⟩ := Prod.mk.inj (Except.ok.inj hok)
          refine ⟨_, e', hok', ?_⟩
          rw [← heq, List.nil_append, hquiet]
      · rw [hd, hdeliver _ _ hpos]
        exact ⟨_, _, rfl, by rw [List.nil_append, hquiet]⟩

end First

end Tesla.Runtime
