/-
# `Tesla.Runtime.Calls` — the classes a call touches, and invariants of single classes

A call is a few deliveries to classes with some bookkeeping around them: one
for `tesla_update_state`, none for `tesla_sunrise`, one per registered class
for `tesla_sunset`.  `visits P s k` lists the deliveries that call `k` makes
in store `s`, each with the class as it is when its turn comes.

Most invariants speak about one class at a time.  For these `classwise` is
the whole of the argument about calls: an invariant of classes that survives
being claimed by an automaton and survives a delivery survives every call.
A guard `G` on the deliveries may be assumed; a guarded run (`GuardedRun`) is
one in which all deliveries keep to it.
-/
import Tesla.Lib.Ensures
import Tesla.Runtime.Deliver

namespace Tesla.Runtime

open Lib

/-- An event about to be delivered to a class whose lifetime has begun. -/
structure Visit where
  autom : Automaton
  cls : Nat
  symbol : Nat
  pattern : Key
  before : Class
  deriving DecidableEq

/-- The delivery made by `tesla_update_class_state`, if the event is not ignored. -/
def visit (P : Program) (cls symbol : Nat) (pattern : Key) (s : Store) : List Visit :=
  match s.tsClasses[cls]? with
  | none => []
  | some c =>
      match c.tcAutomaton with
      | none => []
      | some a =>
          if (s.findLifetime (P.automaton a).taLifetime).isSome then
            [⟨P.automaton a, cls, symbol, pattern, c⟩]
          else []

/-- The delivery `tesla_sunset` makes to one registered class. -/
def cleanupVisit (P : Program) (key : Key) (cls : Nat) (s : Store) : List Visit :=
  match (s.tsClasses[cls]?).bind Class.tcAutomaton with
  | none => []
  | some a => visit P cls (P.automaton a).taCleanupSymbol key s

/-- The deliveries of one loop of `tesla_sunset`. -/
def sunsetVisits (P : Program) (key : Key) (li : Nat)
    (slots : LifetimeState → List (Option Nat)) : List Nat → Store → List Visit
  | [], _ => []
  | i :: is, s =>
      match (s.tsLifetimes[li]?).bind (fun ls => (slots ls)[i]?.join) with
      | none => []
      | some cls =>
          cleanupVisit P key cls s ++
            match cleanupClass P key cls s with
            | .error _ => []
            | .ok (s', _) => sunsetVisits P key li slots is s'

/-- The deliveries call `k` makes in store `s`. -/
def visits (P : Program) (s : Store) : Call → List Visit
  | .sunrise _ => []
  | .updateState autom symbol pattern =>
      match classGet s autom with
      | none => []
      | some (s', cls) => visit P cls symbol pattern s'
  | .sunset l junk =>
      match s.findLifetime l with
      | none => []
      | some li =>
          sunsetVisits P (emptyKey junk) li LifetimeState.tlsClasses
              (List.range staticClasses) s ++
            match sunsetStatic P junk li s [.sunset l] with
            | .error _ => []
            | .ok (s', _) =>
                sunsetVisits P (emptyKey junk) li LifetimeState.tlsDynClasses
                  (List.range (((s'.tsLifetimes[li]?).map LifetimeState.tlsDynCount).getD 0)) s'

/-- A step all of whose deliveries keep to `G`. -/
def GuardedStep (P : Program) (G : Visit → Prop) (s : Store) (k : Call) (s' : Store) : Prop :=
  Step P s k s' ∧ ∀ v ∈ visits P s k, G v

/-- The runs all of whose deliveries keep to `G`. -/
abbrev GuardedRun (P : Program) (G : Visit → Prop) (classes instances : UInt32) :
    List Call → Store → Prop :=
  Run (GuardedStep P G) (storeInit classes instances)

/-! ## Notifications and failures that do not come from a delivery -/

/-- The notifications the calls make themselves. -/
def Event.ofCall : Event → Bool
  | .sunrise _ | .sunset _ | .ignored .. => true
  | _ => false

/-- The assertions of the calls themselves. -/
def Abort.ofCall : Abort → Bool
  | .lifetimeTableFull | .sunsetWithoutSunrise | .noClassSlot | .wildPointer => true
  | _ => false

/-! ## Finding a class changes no more than its owner -/

theorem classGetLoop_spec {s s' : Store} {a : Ptr} {cls : Nat} {is : List Nat}
    (h : classGetLoop s a is = some (s', cls)) :
    ∃ c, s.tsClasses[cls]? = some c ∧
      ((c.tcAutomaton = some a ∧ s' = s) ∨
        (c.tcAutomaton = none ∧
          s' = { s with tsClasses := s.tsClasses.set cls { c with tcAutomaton := some a } })) := by
  induction is with
  | nil => cases h
  | cons i is ih =>
      simp only [classGetLoop] at h
      split at h
      · cases h
      · rename_i c hc
        split at h
        · rename_i hn
          cases h
          exact ⟨c, hc, Or.inr ⟨hn, rfl⟩⟩
        · rename_i b hb
          split at h
          · rename_i hba
            cases h
            exact ⟨c, hc, Or.inl ⟨hba ▸ hb, rfl⟩⟩
          · exact ih h

theorem classGet_spec {s s' : Store} {a : Ptr} {cls : Nat} (h : classGet s a = some (s', cls)) :
    ∃ c, s.tsClasses[cls]? = some c ∧
      ((c.tcAutomaton = some a ∧ s' = s) ∨
        (c.tcAutomaton = none ∧
          s' = { s with tsClasses := s.tsClasses.set cls { c with tcAutomaton := some a } })) :=
  classGetLoop_spec h

/-! ## Invariants of single classes -/

section Classwise
variable {P : Program} {J : Class → Prop} {G : Visit → Prop} {E : Abort → Prop}
  {V : Event → Prop}

/-- What a call that keeps `J` leaves. -/
abbrev Keeps (J : Class → Prop) (V : Event → Prop) (r : Store × List Event) : Prop :=
  (∀ c ∈ r.1.tsClasses, J c) ∧ ∀ ev ∈ r.2, V ev

/-- The premises of the rule. -/
structure Preserved (P : Program) (J : Class → Prop) (G : Visit → Prop) (V : Event → Prop)
    (E : Abort → Prop) : Prop where
  claim : ∀ {c : Class} {a : Ptr}, J c → c.tcAutomaton = none →
    J { c with tcAutomaton := some a }
  update : ∀ {v : Visit} {a : Ptr} {ls : LifetimeState}, G v → J v.before →
    v.before.tcAutomaton = some a → v.autom = P.automaton a →
    Ensures (updateFound P v.autom v.cls v.symbol v.pattern v.before ls)
      (fun r => J r.1 ∧ ∀ ev ∈ r.2.2, V ev) E
  event : ∀ ev : Event, ev.ofCall = true → V ev
  abort : ∀ a : Abort, a.ofCall = true → E a

variable (hJ : Preserved P J G V E)
include hJ

theorem Preserved.classGet {s s' : Store} {a : Ptr} {cls : Nat}
    (hs : ∀ c ∈ s.tsClasses, J c) (h : classGet s a = some (s', cls)) :
    ∀ c ∈ s'.tsClasses, J c := by
  obtain ⟨c, hc, ⟨_, rfl⟩ | ⟨hn, rfl⟩⟩ := classGet_spec h
  · exact hs
  · intro u hu
    rcases List.mem_or_eq_of_mem_set hu with hu | rfl
    · exact hs u hu
    · exact hJ.claim (hs c (List.mem_of_getElem? hc)) hn

theorem Preserved.updateClassState {cls symbol : Nat} {pattern : Key} {s : Store}
    (hs : ∀ c ∈ s.tsClasses, J c) (hG : ∀ v ∈ visit P cls symbol pattern s, G v) :
    Ensures (updateClassState P cls symbol pattern s) (Keeps J V) E := by
  unfold Runtime.updateClassState
  unfold visit at hG
  split
  · exact hJ.abort _ rfl
  · rename_i c hc
    simp only [hc] at hG
    split
    · exact hJ.abort _ rfl
    · rename_i a ha
      simp only [ha] at hG
      dsimp only
      split
      · refine ⟨hs, fun ev hev => ?_⟩
        cases List.mem_singleton.mp hev
        exact hJ.event _ rfl
      · rename_i li hli
        simp only [hli, Option.isSome_some, if_true] at hG
        split
        · exact hJ.abort _ rfl
        · rename_i ls hls
          have hu : Ensures (updateFound P (P.automaton a) cls symbol pattern c ls) _ E :=
            hJ.update (hG _ (List.mem_singleton.mpr rfl)) (hs c (List.mem_of_getElem? hc)) ha rfl
          split
          · rename_i e he
            exact hu.of_error he
          · rename_i c' ls' evs hok
            obtain ⟨hc', hev⟩ := hu.of_ok hok
            refine ⟨fun u hu => ?_, hev⟩
            rcases List.mem_or_eq_of_mem_set hu with hu | rfl
            · exact hs u hu
            · exact hc'

theorem Preserved.cleanupClass {key : Key} {cls : Nat} {s : Store}
    (hs : ∀ c ∈ s.tsClasses, J c) (hG : ∀ v ∈ cleanupVisit P key cls s, G v) :
    Ensures (cleanupClass P key cls s) (Keeps J V) E := by
  unfold Runtime.cleanupClass
  unfold cleanupVisit at hG
  split
  · exact hJ.abort _ rfl
  · rename_i a ha
    simp only [ha] at hG
    exact hJ.updateClassState hs hG

theorem Preserved.sunsetLoop {key : Key} {li : Nat} {slots : LifetimeState → List (Option Nat)}
    {is : List Nat} : ∀ {s : Store} {evs : List Event}, Keeps J V (s, evs) →
    (∀ v ∈ sunsetVisits P key li slots is s, G v) →
    Ensures (sunsetLoop P key li slots is s evs) (Keeps J V) E := by
  induction is with
  | nil => intro s evs hs _; exact hs
  | cons i is ih =>
      intro s evs hs hG
      simp only [Runtime.sunsetLoop]
      simp only [sunsetVisits] at hG
      split
      · exact hs
      · rename_i cls hcls
        simp only [hcls, List.forall_mem_append] at hG
        have hclean := hJ.cleanupClass hs.1 hG.1
        split
        · rename_i e he
          exact hclean.of_error he
        · rename_i s' evs' hok
          obtain ⟨hs', hev'⟩ := hclean.of_ok hok
          simp only [hok] at hG
          exact ih ⟨hs', List.forall_mem_append.mpr ⟨hs.2, hev'⟩⟩ hG.2

theorem Preserved.sunset {l : Lifetime} {junk : Key} {s : Store}
    (hs : ∀ c ∈ s.tsClasses, J c) (hG : ∀ v ∈ visits P s (.sunset l junk), G v) :
    Ensures (sunset P l junk s) (Keeps J V) E := by
  unfold Runtime.sunset
  simp only [visits] at hG
  split
  · split
    · exact hJ.abort _ rfl
    · rename_i li hli
      simp only [hli, List.forall_mem_append] at hG
      have hs₀ : Keeps J V (s, [.sunset l]) := ⟨hs, fun ev hev => by
        cases List.mem_singleton.mp hev
        exact hJ.event _ rfl⟩
      have hl := hJ.sunsetLoop hs₀ hG.1
      have hst : Ensures (sunsetStatic P junk li s [.sunset l]) (Keeps J V) E := by
        unfold sunsetStatic
        split
        · rename_i e he
          exact hl.of_error he
        · rename_i s' evs' hok
          have hkeep := hl.of_ok hok
          exact hkeep
      split
      · rename_i e he
        exact hst.of_error he
      · rename_i s' evs' hok
        have hs' := hst.of_ok hok
        simp only [hok] at hG
        have hd := hJ.sunsetLoop hs' hG.2
        unfold sunsetDynamic
        split
        · rename_i e he
          exact hd.of_error he
        · rename_i s'' evs'' hok'
          have hkeep := hd.of_ok hok'
          exact hkeep
  · exact hJ.abort _ rfl

/-- The rule: an invariant of classes that survives a delivery survives a call. -/
theorem Preserved.call {s : Store} {k : Call} (hs : ∀ c ∈ s.tsClasses, J c)
    (hG : ∀ v ∈ visits P s k, G v) : Ensures (call P s k) (Keeps J V) E := by
  cases k with
  | sunrise l =>
      show Ensures (sunrise l s) _ _
      have hev : ∀ ev ∈ [Event.sunrise l], V ev := fun ev hev => by
        cases List.mem_singleton.mp hev
        exact hJ.event _ rfl
      unfold sunrise
      split
      · split
        · exact ⟨hs, hev⟩
        · exact ⟨hs, hev⟩
      · exact hJ.abort _ rfl
  | updateState a symbol pattern =>
      show Ensures (updateState P a symbol pattern s) _ _
      unfold updateState
      simp only [visits] at hG
      split
      · exact hJ.abort _ rfl
      · rename_i s' cls hget
        simp only [hget] at hG
        exact hJ.updateClassState (hJ.classGet hs hget) hG
  | sunset l junk => exact hJ.sunset hs hG

/-- The rule along a run. -/
theorem Preserved.run {classes instances : UInt32} {ks : List Call} {s : Store}
    (h : GuardedRun P G classes instances ks s) (h₀ : J (Class.fresh instances.toNat)) :
    ∀ c ∈ s.tsClasses, J c := by
  refine h.invariant (P := fun s => ∀ c ∈ s.tsClasses, J c) ?_ ?_
  · intro c hc
    cases List.eq_of_mem_replicate hc
    exact h₀
  · intro t u k ht hstep
    obtain ⟨⟨evs, hcall⟩, hG⟩ := hstep
    exact ((hJ.call ht hG).of_ok hcall).1

end Classwise

theorem guardedRun_of_run {P : Program} {classes instances : UInt32} {ks : List Call} {s : Store}
    (h : LibRun P classes instances ks s) :
    GuardedRun P (fun _ => True) classes instances ks s :=
  h.mono fun hs => ⟨hs, fun _ _ => trivial⟩

/-- Making calls, as long as their deliveries keep to `G`. -/
def Call.run (P : Program) (G : Visit → Prop) [DecidablePred G] (s : Store) (ks : List Call) :
    Option Store :=
  ks.foldlM (fun s k => if ∀ v ∈ visits P s k, G v then (call P s k).toOption.map Prod.fst
    else none) s

theorem guardedRun_of_exec {P : Program} {G : Visit → Prop} [DecidablePred G]
    {classes instances : UInt32} {ks : List Call} {s : Store}
    (h : Call.run P G (storeInit classes instances) ks = some s) :
    GuardedRun P G classes instances ks s := by
  refine Run.of_exec (fun {s k t} hst => ?_) h
  split at hst
  · rename_i hG
    obtain ⟨r, hr, rfl⟩ := Option.map_eq_some_iff.mp hst
    exact ⟨⟨r.2, ok_of_toOption hr⟩, hG⟩
  · cases hst

theorem run_of_exec {P : Program} {classes instances : UInt32} {ks : List Call} {s : Store}
    (h : Call.run P (fun _ => True) (storeInit classes instances) ks = some s) :
    LibRun P classes instances ks s :=
  (guardedRun_of_exec h).mono fun hs => hs.1

end Tesla.Runtime
