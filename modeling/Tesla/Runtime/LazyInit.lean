/-
# `Tesla.Runtime.LazyInit` — when late initialisation is invisible

One window of automaton `a` is `tesla_sunrise(l)`, some events for `a`, and
`tesla_sunset(l)` (`window`).  The failures it reports are compared with those of
the reference of `Tesla.Runtime.Eager`.

With the first event the library catches up: it leaves the store that the
reference has, and from there on the two agree for as long as events come to
classes in use (`first_event`).  So what can be seen of late initialisation is

    an init transition that its two loops do not stop at, or not at it only
    a class emptied within the window, which the next event starts again
    a window without events, in which the class is never registered and the
      first instance never meets the cleanup event                              `empty_window`

and `lazy_init_invisible` says that nothing else can.
-/
import Tesla.Runtime.Eager

namespace Tesla.Runtime

open Lib

variable {P : Program} {a : Ptr} {l : Lifetime} {s s' t t' : Store} {cls li : Nat} {c : Class}
  {ls ls' : LifetimeState} {evs evs' : List Event} {u : Transition}

/-! ## Windows -/

/-- The calls of a window. -/
def window (a : Ptr) (l : Lifetime) (events : List (Nat × Key)) (junk : Key) : List Call :=
  .sunrise l :: ((events.map fun e => .updateState a e.1 e.2) ++ [.sunset l junk])

/-- Making calls through `f`. -/
def runCalls (f : Store → Call → Except Abort (Store × List Event)) :
    List Call → Store → Except Abort (Store × List Event)
  | [], s => .ok (s, [])
  | k :: ks, s =>
      match f s k with
      | .error e => .error e
      | .ok (s', evs) => (runCalls f ks s').map fun r => (r.1, evs ++ r.2)

/-- All the deliveries made by the calls. -/
def deliveries (P : Program) : List Call → Store → List Visit
  | [], _ => []
  | k :: ks, s => visits P s k ++
      match call P s k with
      | .error _ => []
      | .ok (s', _) => deliveries P ks s'

/-- The failures reported, in order, if all calls return. -/
def reports (r : Except Abort (Store × List Event)) : Except Abort (List Event) :=
  (observe r).map Prod.snd

section Calls
variable {f g : Store → Call → Except Abort (Store × List Event)} {k : Call} {ks : List Call}

theorem observe_runCalls_cons (h : observe (f s k) = observe (g t k))
    (hrest : ∀ s' evs, f s k = .ok (s', evs) →
      observe (runCalls f ks s') = observe (runCalls g ks s')) :
    observe (runCalls f (k :: ks) s) = observe (runCalls g (k :: ks) t) := by
  rw [runCalls, runCalls]
  obtain ⟨e, hf, hg⟩ | ⟨s', evs, evs', hf, hg, hevs⟩ := observe_cases h
  · rw [hf, hg]
  · rw [hf, hg]
    simp only
    obtain ⟨e, hf', hg'⟩ | ⟨s'', e₁, e₂, hf', hg', he⟩ := observe_cases (hrest s' evs hf)
    · rw [hf', hg']
      rfl
    · rw [hf', hg']
      show Except.ok (s'', failures (evs ++ e₁)) = Except.ok (s'', failures (evs' ++ e₂))
      rw [failures_append, failures_append, hevs, he]

/-- From a common store on, as long as classes are in use. -/
theorem runCalls_eq_eager (hk : ∀ k ∈ ks, ∀ l, k ≠ .sunrise l) :
    ∀ {s : Store}, (∀ v ∈ deliveries P ks s, v.Used) →
      runCalls (call P) ks s = runCalls (eagerCall P a) ks s := by
  induction ks with
  | nil =>
    intro s _
    rfl
  | cons k ks ih =>
    intro s h
    obtain ⟨hk₀, hks⟩ := List.forall_mem_cons.mp hk
    rw [deliveries, List.forall_mem_append] at h
    rw [runCalls, runCalls, ← call_eq_eager hk₀ h.1]
    cases hcall : call P s k with
    | error e => rfl
    | ok r =>
      have hrest : ∀ v ∈ deliveries P ks r.1, v.Used := by
        simpa only [hcall] using h.2
      simp only [ih hks hrest]

end Calls

/-! ## The init transition -/

/-- Late initialisation finds the init transition, and creates its instance only. -/
structure FindsInit (autom : Automaton) (u : Transition) : Prop where
  first : initTransition autom = some u
  hits : initHits autom = [u]
  state : u.toState ≠ 0

/-- The loops of late initialisation, given the transitions they stop at. -/
def createAll : List Transition → Class → Option Nat → Except Abort LateInit
  | [], c, inst => .ok ⟨c, inst, none⟩
  | t :: ts, c, inst =>
      match instanceNew c Key.zero t.toState with
      | .ok (c', slot) => createAll ts c' (some slot)
      | .error (.err e) => .ok ⟨c, inst, some e⟩
      | .error (.abort a) => .error a

theorem initOuter_eq {autom : Automaton} {fuel : Nat} : ∀ {i : Nat} {c : Class} {inst : Option Nat},
    initOuter autom fuel i c inst = createAll (initHitsFrom autom fuel i) c inst := by
  induction fuel with
  | zero =>
    intro i c inst
    rfl
  | succ fuel ih =>
    intro i c inst
    rw [initOuter, initHitsFrom]
    cases autom.taTransitions[i]? with
    | none => rfl
    | some ts =>
      simp only
      rcases initInner ts (ts.length - i) i with ⟨i', _ | t⟩
      · exact ih
      · simp only [createAll]
        rcases instanceNew c Key.zero t.toState with (e | e) | r
        · rfl
        · rfl
        · exact ih

/-- The class with its first instance. -/
def Class.withFirst (c : Class) (u : Transition) : Class :=
  { c.setInstance 0 (initInstance u) with tcFree := c.tcFree - 1 }

theorem instanceNew_first (hwf : c.WF) (hempty : c.tcLimit = c.tcFree) (hpos : 0 < c.tcLimit)
    (hu : u.toState ≠ 0) :
    instanceNew c Key.zero u.toState = .ok (c.withFirst u, 0) ∧
      (c.withFirst u).First (initInstance u) := by
  have hina := hwf.inactive_of_empty hempty
  obtain ⟨x, rest, hinsts⟩ : ∃ x rest, c.tcInstances = x :: rest :=
    List.exists_cons_of_length_pos hpos
  rw [hinsts, List.forall_mem_cons] at hina
  refine ⟨?_, ⟨rest, ?_, hina.2⟩, ?_, ?_⟩
  · have hfind : c.tcInstances.findIdx? (fun inst => !instanceActive inst) = some 0 := by
      rw [hinsts, List.findIdx?_cons, if_pos (by rw [hina.1]; rfl)]
    rw [instanceNew, if_neg (fun h => hu h.1), if_neg (by omega), hfind]
    rfl
  · show c.tcInstances.set 0 (initInstance u) = _
    rw [hinsts]
    rfl
  · exact instanceActive_iff.mpr (.inl hu)
  · show c.tcFree - 1 + 1 = (c.setInstance 0 (initInstance u)).tcLimit
    rw [Class.setInstance_tcLimit]
    omega

/-- Late initialisation, as far as it goes right. -/
theorem prepare_first {autom : Automaton} {symbol : Nat} (hwf : c.WF)
    (hempty : c.tcLimit = c.tcFree) (hpos : 0 < c.tcLimit) (hhits : initHits autom = [u])
    (hu : u.toState ≠ 0) :
    prepare autom cls symbol c ls =
      match register ls cls with
      | .error e => .error e
      | .ok ls' => .ok (.go (c.withFirst u) ls' [.newInstance cls 0 (initInstance u)]) := by
  obtain ⟨hnew, hfirst⟩ := instanceNew_first hwf hempty hpos hu
  have hlate : lateInit autom c = .ok ⟨c.withFirst u, some 0, none⟩ := by
    rw [lateInit, initOuter_eq]
    show createAll (initHits autom) c none = _
    rw [hhits, createAll, hnew]
    rfl
  have hget : (c.withFirst u).tcInstances.getD 0 Instance.zero = initInstance u := by
    obtain ⟨rest, hinsts, _⟩ := hfirst.instances
    rw [hinsts]
    rfl
  cases hreg : register ls cls with
  | error e => simp only [prepare, if_pos hempty, hlate, hget, hfirst.active, if_true, hreg]
  | ok ls' => simp only [prepare, if_pos hempty, hlate, hget, hfirst.active, if_true, hreg]

/-! ## The first event -/

theorem eager_known {symbol : Nat} {pattern : Key} (hc : s.tsClasses[cls]? = some c)
    (ha : c.tcAutomaton = some a) (hli : s.findLifetime (P.automaton a).taLifetime = some li) :
    updateClassWith P (eagerFound P) cls symbol pattern s =
      (eagerClass P (P.automaton a) cls symbol pattern c).map fun r =>
        (⟨s.tsClasses.set cls r.1, s.tsLifetimes⟩, r.2) := by
  obtain ⟨ls, hls⟩ := slot_of_find hli
  have hsame : s.tsLifetimes.set li ls = s.tsLifetimes := by
    obtain ⟨hlt, rfl⟩ := List.getElem?_eq_some_iff.mp hls
    exact List.set_getElem_self hlt
  rw [updateClassWith, hc]
  simp only [ha, hli, hls, eagerFound]
  cases eagerClass P (P.automaton a) cls symbol pattern c with
  | error e => rfl
  | ok r =>
    show Except.ok (Store.mk _ (s.tsLifetimes.set li ls), r.2) = _
    rw [hsame]
    rfl

/-- The store in which the reference takes the window up. -/
def Store.withFirst (s : Store) (cls li : Nat) (c : Class) (u : Transition) (ls' : LifetimeState) :
    Store :=
  ⟨s.tsClasses.set cls (c.withFirst u), s.tsLifetimes.set li ls'⟩

theorem bounds_withFirst (hls : s.tsLifetimes[li]? = some ls) (hreg : register ls cls = .ok ls') :
    (s.withFirst cls li c u ls').bounds = s.bounds :=
  bounds_set hls (register_bounds hreg)

/-- With its first event a class catches up with the reference. -/
theorem updateClass_first {symbol : Nat} {pattern : Key} (hwf : c.WF)
    (hempty : c.tcLimit = c.tcFree) (hpos : 0 < c.tcLimit) (hu : FindsInit (P.automaton a) u)
    (hc : s.tsClasses[cls]? = some c) (ha : c.tcAutomaton = some a)
    (hli : s.findLifetime (P.automaton a).taLifetime = some li)
    (hls : s.tsLifetimes[li]? = some ls) (hreg : register ls cls = .ok ls') :
    observe (updateClassState P cls symbol pattern s) =
      observe (updateClassWith P (eagerFound P) cls symbol pattern
        (s.withFirst cls li c u ls')) := by
  have hlt := (List.getElem?_eq_some_iff.mp hc).1
  have hli' : (s.withFirst cls li c u ls').findLifetime (P.automaton a).taLifetime = some li := by
    rw [findLifetime_congr (bounds_withFirst hls hreg), hli]
  have hc' : (s.withFirst cls li c u ls').tsClasses[cls]? = some (c.withFirst u) :=
    List.getElem?_set_self hlt
  have ha' : (c.withFirst u).tcAutomaton = some a := ha
  obtain ⟨_, hfirst⟩ := instanceNew_first hwf hempty hpos hu.state
  have hfree : c.tcFree = (c.withFirst u).tcFree + 1 := by
    show c.tcFree = c.tcFree - 1 + 1
    omega
  rw [eager_known hc' ha' hli', updateClassState, hc]
  simp only [ha, hli, hls, updateFound, prepare_first hwf hempty hpos hu.hits hu.state, hreg, eagerClass]
  cases (P.automaton a).taTransitions[symbol]? with
  | none => rfl
  | some ts =>
    by_cases hlen : ts.length = 0
    · simp only [if_pos hlen]
      rfl
    · by_cases hlong : 10000 ≤ ts.length
      · simp only [if_neg hlen, if_pos hlong]
        rfl
      · simp only [if_neg hlen, if_neg hlong]
        have hnew : failures [.newInstance cls 0 (initInstance u)] = failures [] := rfl
        have hobs := hfirst.deliver_observe (d := delivery P cls symbol pattern ts 0) hnew
        rw [← hfree] at hobs
        change observe (deliver (delivery P cls symbol pattern ts c.tcFree) _ _) =
          observe (deliver (delivery P cls symbol pattern ts (c.withFirst u).tcFree) _ _) at hobs
        obtain ⟨e, h₁, h₂⟩ | ⟨c', e₁, e₂, h₁, h₂, he⟩ := observe_cases hobs
        · rw [h₁, h₂]
          rfl
        · rw [h₁, h₂]
          show Except.ok (Store.mk (s.tsClasses.set cls c') (s.tsLifetimes.set li ls'),
            failures e₁) = Except.ok (Store.mk ((s.tsClasses.set cls (c.withFirst u)).set cls c')
              (s.tsLifetimes.set li ls'), failures e₂)
          rw [List.set_set, he]

theorem updateClass_unregistered {symbol : Nat} {pattern : Key} {e : Abort} (hwf : c.WF)
    (hempty : c.tcLimit = c.tcFree) (hpos : 0 < c.tcLimit) (hu : FindsInit (P.automaton a) u)
    (hc : s.tsClasses[cls]? = some c) (ha : c.tcAutomaton = some a)
    (hli : s.findLifetime (P.automaton a).taLifetime = some li)
    (hls : s.tsLifetimes[li]? = some ls) (hreg : register ls cls = .error e) :
    updateClassState P cls symbol pattern s = .error e := by
  rw [updateClassState, hc]
  simp only [ha, hli, hls, updateFound, prepare_first hwf hempty hpos hu.hits hu.state, hreg]

/-! ## Sunsets of the reference -/

section Sunset
variable {clean : Nat → Store → Except Abort (Store × List Event)} {key : Key} {x : Nat}

/-- The cleanup events for the classes of a list, in order. -/
def cleanAll (clean : Nat → Store → Except Abort (Store × List Event)) :
    List Nat → Store → List Event → Except Abort (Store × List Event)
  | [], s, evs => .ok (s, evs)
  | x :: xs, s, evs =>
      match clean x s with
      | .error e => .error e
      | .ok (s', evs') => cleanAll clean xs s' (evs ++ evs')

theorem cleanAll_append {xs ys : List Nat} : ∀ {s : Store} {evs : List Event},
    cleanAll clean (xs ++ ys) s evs =
      match cleanAll clean xs s evs with
      | .error e => .error e
      | .ok (s', evs') => cleanAll clean ys s' evs' := by
  induction xs with
  | nil =>
    intro s evs
    rfl
  | cons x xs ih =>
    intro s evs
    rw [List.cons_append, cleanAll, cleanAll]
    cases clean x s with
    | error e => rfl
    | ok r => exact ih

/-- The cleanup event leaves the lifetimes alone. -/
def KeepsLifetimes (clean : Nat → Store → Except Abort (Store × List Event)) : Prop :=
  ∀ x s s' evs, clean x s = .ok (s', evs) → s'.tsLifetimes = s.tsLifetimes

theorem cleanAll_lifetimes (hclean : KeepsLifetimes clean) {xs : List Nat} :
    ∀ {s : Store} {evs : List Event}, cleanAll clean xs s evs = .ok (s', evs') →
      s'.tsLifetimes = s.tsLifetimes := by
  induction xs with
  | nil =>
    intro s evs h
    cases h
    rfl
  | cons x xs ih =>
    intro s evs h
    rw [cleanAll] at h
    split at h
    · cases h
    · next hok => exact (ih h).trans (hclean _ _ _ _ hok)

/-- A loop of the sunset walks the list it finds, up to the first NULL. -/
theorem sunsetLoopWith_eq (hclean : KeepsLifetimes clean)
    (slots : LifetimeState → List (Option Nat)) {is : List Nat} :
    ∀ {s : Store} {evs : List Event}, s.tsLifetimes[li]? = some ls →
      sunsetLoopWith clean li slots is s evs =
        cleanAll clean (firstSome (is.map fun i => (slots ls)[i]?.join)) s evs := by
  induction is with
  | nil =>
    intro s evs _
    rfl
  | cons i is ih =>
    intro s evs hls
    rw [sunsetLoopWith, hls, List.map_cons]
    simp only [Option.bind_some]
    cases (slots ls)[i]?.join with
    | none => rfl
    | some x =>
      simp only [firstSome, cleanAll]
      cases hok : clean x s with
      | error e => rfl
      | ok r =>
        refine ih ?_
        rw [hclean _ _ _ _ hok]
        exact hls

theorem sunsetWith_eq (hclean : KeepsLifetimes clean) (hroom : s.tsLifetimeCount < s.tsLength)
    (hli : s.findLifetime l = some li) (hls : s.tsLifetimes[li]? = some ls) (hs : ls.Shape) :
    sunsetWith clean l s =
      match cleanAll clean (firstSome ls.tlsClasses) s [.sunset l] with
      | .error e => .error e
      | .ok (s₁, evs) =>
          (cleanAll clean (firstSome (ls.tlsDynClasses.take ls.tlsDynCount))
              (s₁.modifyLifetime li LifetimeState.clearStatic) evs).map fun r =>
            (r.1.modifyLifetime li LifetimeState.clearDynamic, r.2) := by
  have hstatic : ((List.range staticClasses).map fun i => ls.tlsClasses[i]?.join) =
      ls.tlsClasses := by
    rw [map_range_getElem? _ (by rw [hs.statics]), List.take_of_length_le (by rw [hs.statics])]
  rw [sunsetWith, if_pos hroom, hli]
  simp only [sunsetLoopWith_eq hclean LifetimeState.tlsClasses hls, hstatic]
  cases hok : cleanAll clean (firstSome ls.tlsClasses) s [.sunset l] with
  | error e => rfl
  | ok r =>
    have hls₁ : r.1.tsLifetimes[li]? = some ls := by
      rw [cleanAll_lifetimes hclean hok]
      exact hls
    have hls₂ : (r.1.modifyLifetime li LifetimeState.clearStatic).tsLifetimes[li]? =
        some ls.clearStatic := by
      rw [modifyLifetime_eq hls₁]
      exact List.getElem?_set_self (List.getElem?_eq_some_iff.mp hls₁).1
    have hcount : ls.tlsDynCount ≤ ls.tlsDynClasses.length := by
      rw [hs.capacity]
      exact hs.count
    have hdyn : ((List.range ls.tlsDynCount).map fun i => ls.clearStatic.tlsDynClasses[i]?.join) =
        ls.tlsDynClasses.take ls.tlsDynCount := map_range_getElem? _ hcount
    simp only [hls₂, Option.map_some, Option.getD_some,
      sunsetLoopWith_eq hclean LifetimeState.tlsDynClasses hls₂]
    rw [show ls.clearStatic.tlsDynCount = ls.tlsDynCount from rfl, hdyn]
    cases cleanAll clean (firstSome (ls.tlsDynClasses.take ls.tlsDynCount))
      (r.1.modifyLifetime li LifetimeState.clearStatic) r.2 <;> rfl

theorem keepsLifetimes_eager (P : Program) (key : Key) :
    KeepsLifetimes (cleanupWith P (eagerFound P) key) := by
  intro x s s' evs h
  rw [cleanupWith] at h
  split at h
  · cases h
  · next a ha =>
    obtain ⟨c, hc, ha⟩ := Option.bind_eq_some_iff.mp ha
    cases hli : s.findLifetime (P.automaton a).taLifetime with
    | none =>
      rw [updateClassWith, hc] at h
      simp only [ha, hli] at h
      cases h
      rfl
    | some li =>
      rw [eager_known hc ha hli] at h
      cases hr : eagerClass P (P.automaton a) x (P.automaton a).taCleanupSymbol key c with
      | error e =>
        rw [hr] at h
        cases h
      | ok r =>
        rw [hr] at h
        cases h
        rfl

/-! ## A store and the same with one class more -/

/-- Outside class `cls`, where `t` has `c`, the two stores hold the same. -/
structure Beside (cls : Nat) (c : Class) (s t : Store) : Prop where
  classes : ∀ i : Nat, i ≠ cls → t.tsClasses[i]? = s.tsClasses[i]?
  here : t.tsClasses[cls]? = some c
  bounds : t.bounds = s.bounds

/-- Outcomes with the same failures, in stores beside each other. -/
def Alike (cls : Nat) (c : Class) (x y : Except Abort (Store × List Event)) : Prop :=
  (∃ e, x = .error e ∧ y = .error e) ∨
    ∃ s t evs evs', x = .ok (s, evs) ∧ y = .ok (t, evs') ∧ Beside cls c s t ∧
      failures evs = failures evs'

theorem Beside.modifyLifetime (h : Beside cls c s t) (li : Nat) {f : LifetimeState → LifetimeState}
    (hf : ∀ ls, (f ls).tlsBegin = ls.tlsBegin ∧ (f ls).tlsEnd = ls.tlsEnd) :
    Beside cls c (s.modifyLifetime li f) (t.modifyLifetime li f) := by
  refine ⟨h.classes, h.here, ?_⟩
  rw [bounds_modifyLifetime li hf, bounds_modifyLifetime li hf, h.bounds]

/-- The cleanup event of another class. -/
theorem Beside.cleanup (h : Beside cls c s t) (P : Program) (key : Key) (hx : x ≠ cls) :
    (∃ e, cleanupWith P (eagerFound P) key x s = .error e ∧
      cleanupWith P (eagerFound P) key x t = .error e) ∨
    ∃ s' t' evs, cleanupWith P (eagerFound P) key x s = .ok (s', evs) ∧
      cleanupWith P (eagerFound P) key x t = .ok (t', evs) ∧ Beside cls c s' t' := by
  simp only [cleanupWith, h.classes x hx]
  cases ha : (s.tsClasses[x]?).bind Class.tcAutomaton with
  | none => exact .inl ⟨_, rfl, rfl⟩
  | some a =>
    simp only
    obtain ⟨c₀, hc, ha⟩ := Option.bind_eq_some_iff.mp ha
    have hc' := (h.classes x hx).trans hc
    have hfind := findLifetime_congr h.bounds (P.automaton a).taLifetime
    cases hli : s.findLifetime (P.automaton a).taLifetime with
    | none =>
      rw [hli] at hfind
      simp only [updateClassWith, hc, hc', ha, hli, hfind]
      exact .inr ⟨s, t, _, rfl, rfl, h⟩
    | some li =>
      rw [hli] at hfind
      rw [eager_known hc ha hli, eager_known hc' ha hfind]
      cases eagerClass P (P.automaton a) x (P.automaton a).taCleanupSymbol key c₀ with
      | error e => exact .inl ⟨e, rfl, rfl⟩
      | ok r =>
        refine .inr ⟨_, _, _, rfl, rfl, ?_, ?_, h.bounds⟩
        · intro i hi
          by_cases hix : x = i
          · subst hix
            have hlt := (List.getElem?_eq_some_iff.mp hc).1
            have hlt' := (List.getElem?_eq_some_iff.mp hc').1
            simp only [List.getElem?_set_self hlt, List.getElem?_set_self hlt']
          · simp only [List.getElem?_set_ne hix, h.classes i hi]
        · simp only [List.getElem?_set_ne hx, h.here]

theorem Beside.cleanAll (P : Program) (key : Key) {xs : List Nat} (hxs : cls ∉ xs) :
    ∀ {s t : Store} {evs evs' : List Event},
    Beside cls c s t → failures evs = failures evs' →
      Alike cls c (cleanAll (cleanupWith P (eagerFound P) key) xs s evs)
        (Runtime.cleanAll (cleanupWith P (eagerFound P) key) xs t evs') := by
  induction xs with
  | nil =>
    intro s t evs evs' h hevs
    exact .inr ⟨s, t, evs, evs', rfl, rfl, h, hevs⟩
  | cons x xs ih =>
    intro s t evs evs' h hevs
    rw [List.mem_cons, not_or] at hxs
    simp only [Runtime.cleanAll]
    obtain ⟨e, h₁, h₂⟩ | ⟨s', t', new, h₁, h₂, h'⟩ := h.cleanup P key (Ne.symm hxs.1)
    · rw [h₁, h₂]
      exact .inl ⟨e, rfl, rfl⟩
    · rw [h₁, h₂]
      refine ih hxs.2 h' ?_
      rw [failures_append, failures_append, hevs]

/-- The first instance takes the cleanup event. -/
def TakesCleanup (autom : Automaton) (u : Transition) (key : Key) : Prop :=
  ∃ ts, autom.taTransitions[autom.taCleanupSymbol]? = some ts ∧ ts.length < 10000 ∧
    ∃ v, action (initInstance u) key ts = .ok (.update v) ∨
      action (initInstance u) key ts = .ok (.fork v)

/-- The cleanup event of the class itself. -/
theorem Beside.cleanupFirst (h : Beside cls c s t) (hfirst : c.First (initInstance u))
    (ha : c.tcAutomaton = some a) (hli : s.findLifetime (P.automaton a).taLifetime = some li)
    (htakes : TakesCleanup (P.automaton a) u key) :
    ∃ c' t' new, cleanupWith P (eagerFound P) key cls t = .ok (t', new) ∧ failures new = [] ∧
      Beside cls c' s t' := by
  obtain ⟨ts, hts, hlong, v, hact⟩ := htakes
  have hlen : ts.length ≠ 0 := by
    intro hlen
    rw [List.eq_nil_of_length_eq_zero hlen, action, if_pos hfirst.active] at hact
    obtain hact | hact := hact <;> cases hact
  have hadv : advances (delivery P cls (P.automaton a).taCleanupSymbol key ts c.tcFree)
      (initInstance u) = true := by
    obtain hact | hact := hact
    · simp only [advances, actionOf, delivery, hact]
    · simp only [advances, actionOf, delivery, hact]
  obtain ⟨c', new, hdeliver, hquiet⟩ := hfirst.deliver_advances hadv rfl
  have hclass : eagerClass P (P.automaton a) cls (P.automaton a).taCleanupSymbol key c =
      .ok (c', new) := by
    rw [eagerClass, hts]
    simp only [if_neg hlen, if_neg (Nat.not_le_of_lt hlong), hdeliver]
  have hli' : t.findLifetime (P.automaton a).taLifetime = some li := by
    rw [findLifetime_congr h.bounds, hli]
  refine ⟨c', ⟨t.tsClasses.set cls c', t.tsLifetimes⟩, new, ?_, hquiet, ?_, ?_, h.bounds⟩
  · simp only [cleanupWith, h.here, Option.bind_some, ha]
    rw [eager_known h.here ha hli', hclass]
    rfl
  · intro i hi
    rw [← h.classes i hi]
    exact List.getElem?_set_ne (Ne.symm hi)
  · exact List.getElem?_set_self (List.getElem?_eq_some_iff.mp h.here).1

/-! ## The window without events -/

theorem firstSome_concat_cases (ys : List (Option Nat)) (x : Nat) :
    firstSome (ys ++ [some x]) = firstSome ys ++ [x] ∨
      firstSome (ys ++ [some x]) = firstSome ys := by
  induction ys with
  | nil => exact .inl rfl
  | cons y ys ih =>
    cases y with
    | none => exact .inr rfl
    | some y => exact ih.imp (congrArg (y :: ·)) (congrArg (y :: ·))

/-- What registering adds to the lists that a sunset walks. -/
theorem register_lists (hs : ls.Shape) (hreg : register ls cls = .ok ls') :
    (firstSome ls'.tlsClasses = firstSome ls.tlsClasses ++ [cls] ∧
      ls'.tlsDynClasses.take ls'.tlsDynCount = ls.tlsDynClasses.take ls.tlsDynCount) ∨
    (ls'.tlsClasses = ls.tlsClasses ∧
      (firstSome (ls'.tlsDynClasses.take ls'.tlsDynCount) =
        firstSome (ls.tlsDynClasses.take ls.tlsDynCount) ++ [cls] ∨
      firstSome (ls'.tlsDynClasses.take ls'.tlsDynCount) =
        firstSome (ls.tlsDynClasses.take ls.tlsDynCount))) := by
  obtain ⟨xs, k, hst⟩ := hs.static
  cases k with
  | succ k =>
    rw [register_static hst] at hreg
    cases hreg
    refine .inl ⟨?_, rfl⟩
    simp only [hst, firstSome_map_some, firstSome_replicate_none, List.append_nil]
  | zero =>
    rw [List.replicate_zero, List.append_nil] at hst
    have hfull : ∀ y ∈ ls.tlsClasses, y.isSome = true := by
      rw [hst]
      simp
    obtain ⟨hst', _, _, _, htake⟩ := register_dynamic hs hfull hreg
    rw [htake]
    exact .inr ⟨hst', firstSome_concat_cases ..⟩

/-- The end of a sunset. -/
theorem Alike.reports {x y : Except Abort (Store × List Event)} (h : Alike cls c x y) :
    reports (x.map fun r => (r.1.modifyLifetime li LifetimeState.clearDynamic, r.2)) =
      reports (y.map fun r => (r.1.modifyLifetime li LifetimeState.clearDynamic, r.2)) := by
  obtain ⟨e, rfl, rfl⟩ | ⟨s, t, evs, evs', rfl, rfl, _, hevs⟩ := h
  · rfl
  · show Except.ok (failures evs) = Except.ok (failures evs')
    rw [hevs]

/-- The cleanup events of other classes, and then of the class itself. -/
theorem Beside.cleanAllFirst {xs : List Nat} (hxs : cls ∉ xs) (h : Beside cls c s t)
    (hevs : failures evs = failures evs') (hfirst : c.First (initInstance u))
    (ha : c.tcAutomaton = some a) (hli : s.findLifetime (P.automaton a).taLifetime = some li)
    (htakes : TakesCleanup (P.automaton a) u key) :
    ∃ c', Alike cls c' (Runtime.cleanAll (cleanupWith P (eagerFound P) key) xs s evs)
      (Runtime.cleanAll (cleanupWith P (eagerFound P) key) (xs ++ [cls]) t evs') := by
  rw [cleanAll_append]
  obtain ⟨e, h₁, h₂⟩ | ⟨s', t', e₁, e₂, h₁, h₂, h', he⟩ := Beside.cleanAll P key hxs h hevs
  · rw [h₁, h₂]
    exact ⟨c, .inl ⟨e, rfl, rfl⟩⟩
  · have hlists := cleanAll_lifetimes (keepsLifetimes_eager P key) h₁
    have hli' : s'.findLifetime (P.automaton a).taLifetime = some li := by
      rw [Store.findLifetime, hlists]
      exact hli
    obtain ⟨c', t'', new, hok, hquiet, h''⟩ := h'.cleanupFirst hfirst ha hli' htakes
    refine ⟨c', .inr ⟨s', t'', e₁, e₂ ++ new, h₁, ?_, h'', ?_⟩⟩
    · simp only [h₂, Runtime.cleanAll, hok]
    · rw [failures_append, hquiet, List.append_nil, he]

theorem sunset_beside (h : Beside cls c s t) (hfirst : c.First (initInstance u))
    (ha : c.tcAutomaton = some a) (hla : s.findLifetime (P.automaton a).taLifetime = some li)
    (hli : s.findLifetime l = some li) (htakes : TakesCleanup (P.automaton a) u key)
    (hls : s.tsLifetimes[li]? = some ls) (hls' : t.tsLifetimes[li]? = some ls') (hs : ls.Shape)
    (hreg : register ls cls = .ok ls') (hnot : cls ∉ ls.listed)
    (hroom : s.tsLifetimeCount < s.tsLength) (hroom' : t.tsLifetimeCount < t.tsLength) :
    reports (sunsetWith (cleanupWith P (eagerFound P) key) l s) =
      reports (sunsetWith (cleanupWith P (eagerFound P) key) l t) := by
  have hkeep := keepsLifetimes_eager P key
  have hli' : t.findLifetime l = some li := by
    rw [findLifetime_congr h.bounds, hli]
  have hsunset : failures [.sunset l] = failures [.sunset l] := rfl
  rw [LifetimeState.listed, List.mem_append, not_or] at hnot
  rw [sunsetWith_eq hkeep hroom hli hls hs, sunsetWith_eq hkeep hroom' hli' hls' (hs.register hreg).1]
  obtain ⟨hstatic, hdyn⟩ | ⟨hstatic, hdyn⟩ := register_lists hs hreg
  · -- the class stands last among the static ones
    rw [hstatic, hdyn]
    obtain ⟨c', ⟨e, h₁, h₂⟩ | ⟨s', t', e₁, e₂, h₁, h₂, h', he⟩⟩ :=
      h.cleanAllFirst hnot.1 hsunset hfirst ha hla htakes
    · rw [h₁, h₂]
    · rw [h₁, h₂]
      have hclear := h'.modifyLifetime li (f := LifetimeState.clearStatic) fun _ => ⟨rfl, rfl⟩
      exact (Beside.cleanAll P key hnot.2 hclear he).reports
  · rw [hstatic]
    obtain ⟨e, h₁, h₂⟩ | ⟨s', t', e₁, e₂, h₁, h₂, h', he⟩ :=
      Beside.cleanAll P key hnot.1 h hsunset
    · rw [h₁, h₂]
    · rw [h₁, h₂]
      have hclear := h'.modifyLifetime li (f := LifetimeState.clearStatic) fun _ => ⟨rfl, rfl⟩
      have hla' : (s'.modifyLifetime li LifetimeState.clearStatic).findLifetime
          (P.automaton a).taLifetime = some li := by
        have hb : (s'.modifyLifetime li LifetimeState.clearStatic).bounds = s'.bounds :=
          bounds_modifyLifetime li fun _ => ⟨rfl, rfl⟩
        rw [findLifetime_congr hb, Store.findLifetime, cleanAll_lifetimes hkeep h₁]
        exact hla
      obtain hdyn | hdyn := hdyn
      · rw [hdyn]
        obtain ⟨c', halike⟩ := hclear.cleanAllFirst hnot.2 he hfirst ha hla' htakes
        exact halike.reports
      · -- a NULL stands before it, and the sunset does not get there
        rw [hdyn]
        exact (Beside.cleanAll P key hnot.2 hclear he).reports

end Sunset

/-! ## Lifetime slots of a run -/

theorem Updated.shape {autom : Automaton} {symbol : Nat} {pattern : Key} {c' : Class}
    (h : Updated P autom cls symbol pattern c ls c' ls' evs) (hs : ls.Shape) : ls'.Shape := by
  cases h with
  | returned => exact hs
  | delivered hp => cases hp with
    | ready => exact hs
    | init _ _ _ _ hreg => exact (hs.register hreg).1

theorem updateClassState_shape {symbol : Nat} {pattern : Key}
    (hs : ∀ ls ∈ s.tsLifetimes, ls.Shape)
    (h : updateClassState P cls symbol pattern s = .ok (s', evs)) :
    ∀ ls ∈ s'.tsLifetimes, ls.Shape := by
  obtain ⟨c, b, _, _, ⟨_, rfl, _⟩ | ⟨i, slot, c', slot', _, hslot, hu, rfl⟩⟩ :=
    updateClassState_spec h
  · exact hs
  · exact forall_mem_set hs (hu.shape (hs slot (List.mem_of_getElem? hslot)))

theorem shape_modifyLifetime {f : LifetimeState → LifetimeState}
    (hs : ∀ ls ∈ s.tsLifetimes, ls.Shape) (hf : ∀ ls : LifetimeState, ls.Shape → (f ls).Shape) :
    ∀ ls ∈ (s.modifyLifetime li f).tsLifetimes, ls.Shape := by
  intro ls hmem
  obtain ⟨i, hi⟩ := List.mem_iff_getElem?.mp hmem
  rw [Store.modifyLifetime, List.getElem?_modify] at hi
  obtain ⟨slot, hslot, rfl⟩ := Option.map_eq_some_iff.mp hi
  have hshape := hs slot (List.mem_of_getElem? hslot)
  split
  · exact hf slot hshape
  · exact hshape

theorem shape_of_run {classes instances : UInt32} {ks : List Call}
    (h : LibRun P classes instances ks s) : ∀ ls ∈ s.tsLifetimes, ls.Shape := by
  refine h.invariant (P := fun s => ∀ ls ∈ s.tsLifetimes, ls.Shape) ?_ ?_
  · intro ls hls
    cases hls
  · rintro t u k ht ⟨evs, hk⟩
    cases k with
    | sunrise l =>
      obtain ⟨_, heq | heq⟩ := sunrise_classes hk
      · rw [heq]
        exact ht
      · rw [heq]
        intro ls hls
        obtain hls | hls := List.mem_append.mp hls
        · exact ht ls hls
        · rw [List.mem_singleton.mp hls]
          exact .fresh l
    | updateState b symbol pattern =>
      simp only [call, updateState] at hk
      split at hk
      · cases hk
      · next t' cls hget =>
        refine updateClassState_shape ?_ hk
        rw [(classGet_frame hget).2.2]
        exact ht
    | sunset l junk =>
      obtain ⟨li, hli, hroom⟩ := sunset_begun hk
      have hrule : Ensures (sunset P l junk t) (fun r => ∀ ls ∈ r.1.tsLifetimes, ls.Shape)
          (fun _ => True) := by
        refine sunset_ensures (Q := fun t => ∀ ls ∈ t.tsLifetimes, ls.Shape) hli hroom ht ?_
          (fun _ hs => shape_modifyLifetime hs fun _ h => h.clearStatic.1)
          (fun _ hs => shape_modifyLifetime hs fun _ h => h.clearDynamic.1)
        intro t ls cls hs _ _
        refine .intro ?_ (fun _ _ => trivial)
        rintro ⟨t', evs'⟩ hok
        obtain ⟨symbol, hupd⟩ := cleanupClass_eq hok
        exact updateClassState_shape hs hupd
      exact hrule.of_ok hk

/-! ## Finding the class again -/

/-- The lookup reads the class table only. -/
theorem classGetLoop_classes {is : List Nat} (h : t.tsClasses = s.tsClasses)
    (hget : classGetLoop s a is = some (s', cls)) :
    classGetLoop t a is = some (⟨s'.tsClasses, t.tsLifetimes⟩, cls) := by
  have hlen : t.tsLength = s.tsLength := by rw [Store.tsLength, h, Store.tsLength]
  induction is with
  | nil => cases hget
  | cons i is ih =>
    simp only [classGetLoop] at hget ⊢
    rw [hlen, h]
    cases hc : s.tsClasses[bucket a s.tsLength i]? with
    | none =>
      simp only [hc] at hget
      cases hget
    | some c =>
      simp only [hc] at hget ⊢
      cases hb : c.tcAutomaton with
      | none =>
        simp only [hb] at hget ⊢
        cases hget
        rfl
      | some b =>
        simp only [hb] at hget ⊢
        split at hget
        · next heq =>
          cases hget
          rw [if_pos heq, ← h]
        · next hne =>
          rw [if_neg hne]
          exact ih hget

/-- A class that was found is found again. -/
theorem classGetLoop_again {is : List Nat} (hget : classGetLoop s a is = some (s', cls))
    (h : t.owners = s'.owners) : classGetLoop t a is = some (t, cls) := by
  obtain ⟨c₀, hc₀, hcase⟩ := classGetLoop_spec hget
  have hlen : t.tsLength = s.tsLength := by
    rw [← owners_length, h, owners_length]
    obtain ⟨_, rfl⟩ | ⟨_, rfl⟩ := hcase
    · rfl
    · exact List.length_set
  -- the owner of a bucket, read in the later store
  have hread : ∀ (b : Nat) (x : Ptr), s'.owners[b]? = some (some x) →
      ∃ y, t.tsClasses[b]? = some y ∧ y.tcAutomaton = some x := by
    intro b x hx
    rw [← h, Store.owners, List.getElem?_map] at hx
    exact Option.map_eq_some_iff.mp hx
  have hown : s'.owners[cls]? = some (some a) := by
    obtain ⟨ha, rfl⟩ | ⟨_, rfl⟩ := hcase
    · rw [owners_getElem? hc₀, ha]
    · rw [Store.owners, List.getElem?_map,
        List.getElem?_set_self (List.getElem?_eq_some_iff.mp hc₀).1]
      rfl
  induction is with
  | nil => cases hget
  | cons i is ih =>
    simp only [classGetLoop] at hget ⊢
    rw [hlen]
    split at hget
    · cases hget
    · next c hc =>
      split at hget
      · next hn =>
        obtain ⟨_, rfl⟩ := Prod.mk.inj (Option.some.inj hget)
        obtain ⟨y, hy, hya⟩ := hread _ a hown
        rw [hy]
        simp only [hya, if_true]
      · next b hb =>
        split at hget
        · next heq =>
          obtain ⟨_, rfl⟩ := Prod.mk.inj (Option.some.inj hget)
          obtain ⟨y, hy, hya⟩ := hread _ a hown
          rw [hy]
          simp only [hya, if_true]
        · next hne =>
          have hkeep : s'.owners[bucket a s.tsLength i]? = some (some b) := by
            obtain ⟨_, rfl⟩ | ⟨hn, rfl⟩ := hcase
            · rw [owners_getElem? hc, hb]
            · have hcls : cls ≠ bucket a s.tsLength i := by
                rintro rfl
                rw [hc] at hc₀
                cases hc₀
                rw [hn] at hb
                cases hb
              rw [Store.owners, List.map_set, List.getElem?_set_ne hcls]
              exact (owners_getElem? hc).trans (congrArg some hb)
          obtain ⟨y, hy, hyb⟩ := hread _ b hkeep
          rw [hy]
          simp only [hyb, if_neg hne]
          exact ih hget

/-! ## The condition, and the theorem -/

/-- The window gives late initialisation no occasion to show: its loops find the init
transition; but for the first event, no event comes to an empty class; and without
events, the class could have been registered and its first instance would have taken
the cleanup event. -/
structure Unseen (P : Program) (a : Ptr) (l : Lifetime) (events : List (Nat × Key)) (junk : Key)
    (s : Store) (cls : Nat) (u : Transition) : Prop where
  init : FindsInit (P.automaton a) u
  used : ∀ v ∈ (deliveries P (window a l events junk) s).drop (min events.length 1), v.Used
  cleaned : events = [] → TakesCleanup (P.automaton a) u (emptyKey junk)
  registered : events = [] → ∀ s₁ evs, sunrise l s = .ok (s₁, evs) →
    ∀ li ∈ s₁.findLifetime l, ∀ ls ∈ s₁.tsLifetimes[li]?,
      cls ∉ ls.listed ∧ ∃ ls', register ls cls = .ok ls'

/-- The class of `a` as the first event after the sunrise finds it: `s₁` is the store `s`
with the class claimed. -/
structure Ready (P : Program) (a : Ptr) (s s₁ : Store) (cls li : Nat) (c : Class)
    (ls : LifetimeState) : Prop where
  lookup : classGet s a = some (s₁, cls)
  mem : s₁.tsClasses[cls]? = some c
  owner : c.tcAutomaton = some a
  found : s₁.findLifetime (P.automaton a).taLifetime = some li
  slot : s₁.tsLifetimes[li]? = some ls
  wf : c.WF
  empty : c.tcLimit = c.tcFree
  pos : 0 < c.tcLimit

section Ready
variable {s₁ : Store}

theorem Ready.createFirst (h : Ready P a s s₁ cls li c ls) (hli : s.findLifetime l = some li)
    (hu : FindsInit (P.automaton a) u) :
    createFirst P a l s =
      match register ls cls with
      | .error e => .error e
      | .ok ls' => .ok (s₁.withFirst cls li c u ls') := by
  obtain ⟨hnew, _⟩ := instanceNew_first h.wf h.empty h.pos hu.state
  rw [Runtime.createFirst, h.lookup, hu.first, hli]
  simp only [h.mem, h.slot, hnew]
  cases register ls cls <;> rfl

/-- The reference finds the class where the library does. -/
theorem Ready.classGet (h : Ready P a s s₁ cls li c ls) :
    classGet (s₁.withFirst cls li c u ls') a = some (s₁.withFirst cls li c u ls', cls) := by
  have howners : (s₁.withFirst cls li c u ls').owners = s₁.owners := owners_set h.mem rfl
  have hlen : (s₁.withFirst cls li c u ls').tsLength = s.tsLength := by
    obtain ⟨c₀, _, _, heq⟩ := classGet_claims h.lookup
    rw [← owners_length, howners, owners_length, heq]
    exact List.length_set
  rw [Runtime.classGet, hlen]
  exact classGetLoop_again h.lookup howners

theorem Ready.beside (h : Ready P a s s₁ cls li c ls) (hreg : register ls cls = .ok ls') :
    Beside cls (c.withFirst u) s (s₁.withFirst cls li c u ls') := by
  refine ⟨?_, List.getElem?_set_self (List.getElem?_eq_some_iff.mp h.mem).1, ?_⟩
  · intro i hi
    rw [← (classGet_frame h.lookup).2.1 i hi]
    exact List.getElem?_set_ne (Ne.symm hi)
  · rw [bounds_withFirst h.slot hreg, classGet_bounds h.lookup]

/-- The first event brings the library to where the reference is. -/
theorem Ready.first_event (h : Ready P a s s₁ cls li c ls) (hu : FindsInit (P.automaton a) u)
    (hreg : register ls cls = .ok ls') (e : Nat × Key) :
    observe (call P s (.updateState a e.1 e.2)) =
      observe (eagerCall P a (s₁.withFirst cls li c u ls') (.updateState a e.1 e.2)) := by
  have hlib : call P s (.updateState a e.1 e.2) = updateClassState P cls e.1 e.2 s₁ := by
    rw [call, updateState, h.lookup]
  have href : eagerCall P a (s₁.withFirst cls li c u ls') (.updateState a e.1 e.2) =
      updateClassWith P (eagerFound P) cls e.1 e.2 (s₁.withFirst cls li c u ls') := by
    rw [eagerCall, h.classGet]
  rw [hlib, href]
  exact updateClass_first h.wf h.empty h.pos hu h.mem h.owner h.found h.slot hreg

/-- The first event makes one delivery. -/
theorem Ready.visits (h : Ready P a s s₁ cls li c ls) (e : Nat × Key) :
    (visits P s (.updateState a e.1 e.2)).length = 1 := by
  simp only [Runtime.visits, h.lookup, visit, h.mem, h.owner, h.found, Option.isSome_some, if_true]
  rfl

/-- A window that has an event. -/
theorem Ready.window (h : Ready P a s s₁ cls li c ls) (hu : FindsInit (P.automaton a) u)
    (hreg : register ls cls = .ok ls') {e : Nat × Key} {ks : List Call}
    (hks : ∀ k ∈ ks, ∀ l, k ≠ .sunrise l)
    (hused : ∀ v ∈ (deliveries P (.updateState a e.1 e.2 :: ks) s).drop 1, v.Used) :
    observe (runCalls (call P) (.updateState a e.1 e.2 :: ks) s) =
      observe (runCalls (eagerCall P a) (.updateState a e.1 e.2 :: ks)
        (s₁.withFirst cls li c u ls')) := by
  refine observe_runCalls_cons (h.first_event hu hreg e) ?_
  intro s₂ evs hok
  have hrest : ∀ v ∈ deliveries P ks s₂, v.Used := by
    rw [deliveries, hok, List.drop_append_of_le_length (Nat.le_of_eq (h.visits e).symm),
      List.drop_of_length_le (Nat.le_of_eq (h.visits e)), List.nil_append] at hused
    exact hused
  rw [runCalls_eq_eager hks hrest]

theorem reports_prepend (x : Except Abort (Store × List Event)) (evs : List Event) :
    reports (x.map fun r => (r.1, evs ++ r.2)) = (reports x).map (failures evs ++ ·) := by
  cases x with
  | error e => rfl
  | ok r =>
    show Except.ok (failures (evs ++ r.2)) = Except.ok (failures evs ++ failures r.2)
    rw [failures_append]

theorem reports_single (f : Store → Call → Except Abort (Store × List Event)) (k : Call)
    (s : Store) : reports (runCalls f [k] s) = reports (f s k) := by
  simp only [runCalls]
  cases f s k with
  | error e => rfl
  | ok r =>
    show Except.ok (failures (r.2 ++ [])) = Except.ok (failures r.2)
    rw [List.append_nil]

/-- A window without events. -/
theorem Ready.empty_window {junk : Key} (h : Ready P a s s₁ cls li c ls)
    (hu : FindsInit (P.automaton a) u) (hreg : register ls cls = .ok ls')
    (hl : sameLifetime (P.automaton a).taLifetime l = true) (hshape : ls.Shape)
    (hnot : cls ∉ ls.listed) (htakes : TakesCleanup (P.automaton a) u (emptyKey junk))
    (hused : ∀ v ∈ Runtime.visits P s (.sunset l junk), v.Used) :
    reports (runCalls (call P) [.sunset l junk] s) =
      reports (runCalls (eagerCall P a) [.sunset l junk] (s₁.withFirst cls li c u ls')) := by
  have hbeside := h.beside (u := u) hreg
  have hlists := (classGet_frame h.lookup).2.2
  have hcount : (s₁.withFirst cls li c u ls').tsLifetimeCount = s.tsLifetimeCount := by
    show (s₁.tsLifetimes.set li ls').length = _
    rw [List.length_set, hlists]
    rfl
  have hlen : (s₁.withFirst cls li c u ls').tsLength = s.tsLength := by
    obtain ⟨c₀, _, _, heq⟩ := classGet_claims h.lookup
    show (s₁.tsClasses.set cls (c.withFirst u)).length = _
    rw [List.length_set, heq]
    exact List.length_set
  rw [reports_single, reports_single, call_eq_eager (a := a) (by intro l h; cases h) hused]
  simp only [eagerCall]
  by_cases hroom : s.tsLifetimeCount < s.tsLength
  · have hown : s.findLifetime (P.automaton a).taLifetime = some li := by
      rw [← findLifetime_congr (classGet_bounds h.lookup)]
      exact h.found
    refine sunset_beside hbeside (instanceNew_first h.wf h.empty h.pos hu.state).2 h.owner hown ?_
      htakes (hlists ▸ h.slot) ?_ hshape hreg hnot hroom (by rw [hcount, hlen]; exact hroom)
    · rw [← findLifetime_same hl, hown]
    · exact List.getElem?_set_self (List.getElem?_eq_some_iff.mp h.slot).1
  · rw [sunsetWith, if_neg hroom, sunsetWith, hcount, hlen, if_neg hroom]

end Ready

/-- Lazy initialisation is invisible: on the store of any run in which the class of `a`
is empty, a window of `a` that gives it no occasion to show reports the failures, in
order, that the reference reports. -/
theorem lazy_init_invisible {classes instances : UInt32} {ks : List Call} {s₀ : Store}
    {events : List (Nat × Key)} {junk : Key} (hrun : LibRun P classes instances ks s)
    (hl : sameLifetime (P.automaton a).taLifetime l = true)
    (hget : classGet s a = some (s₀, cls)) (hc : s₀.tsClasses[cls]? = some c)
    (hempty : c.tcLimit = c.tcFree) (hpos : 0 < c.tcLimit)
    (hunseen : Unseen P a l events junk s cls u) :
    reports (runCalls (call P) (window a l events junk) s) =
      reports (runCalls (eagerCall P a) (window a l events junk) s) := by
  cases hrise : sunrise l s with
  | error e => simp only [window, runCalls, call, eagerCall, eagerSunrise, hrise]
  | ok r =>
    obtain ⟨s', evs⟩ := r
    have hrun' : LibRun P classes instances (ks ++ [.sunrise l]) s' := .snoc _ hrun ⟨evs, hrise⟩
    obtain ⟨li, hli⟩ : ∃ li, s'.findLifetime l = some li := by
      refine Option.isSome_iff_exists.mp ((knows_iff hrun' l).mpr ⟨l, ?_, ?_⟩)
      · exact List.mem_append_right _ List.mem_cons_self
      · rw [sameLifetime, sameEvent_refl, sameEvent_refl]
        rfl
    obtain ⟨ls, hls⟩ := slot_of_find hli
    have hlookup : classGet s' a = some (⟨s₀.tsClasses, s'.tsLifetimes⟩, cls) := by
      have hclasses := (sunrise_classes hrise).1
      rw [classGet, Store.tsLength, hclasses]
      exact classGetLoop_classes hclasses hget
    have howner : c.tcAutomaton = some a := by
      have hown := (classGet_frame hget).1
      rw [owners_getElem? hc] at hown
      exact Option.some.inj hown
    have hwf : c.WF := by
      obtain ⟨c₀, hc₀, _, rfl⟩ := classGet_claims hget
      rw [List.getElem?_set_self (List.getElem?_eq_some_iff.mp hc₀).1] at hc
      cases hc
      obtain ⟨hlimit, hbound⟩ := wf_of_run hrun c₀ (List.mem_of_getElem? hc₀)
      exact ⟨hlimit, hbound⟩
    have hready : Ready P a s' ⟨s₀.tsClasses, s'.tsLifetimes⟩ cls li c ls :=
      ⟨hlookup, hc, howner, (findLifetime_same hl).trans hli, hls, hwf, hempty, hpos⟩
    have hused := hunseen.used
    simp only [window, deliveries, Runtime.visits, List.nil_append, call, hrise] at hused
    simp only [window, runCalls, call, eagerCall, eagerSunrise, hrise, if_pos hl,
      hready.createFirst hli hunseen.init]
    cases events with
    | nil =>
      obtain ⟨hnot, ls', hreg⟩ := hunseen.registered rfl s' evs hrise li hli ls hls
      have hvisits : ∀ v ∈ Runtime.visits P s' (.sunset l junk), v.Used := by
        intro v hv
        refine hused v ?_
        rw [List.length_nil, Nat.zero_min, List.drop_zero, List.map_nil, List.nil_append, deliveries]
        exact List.mem_append_left _ hv
      have hshape := shape_of_run hrun' ls (List.mem_of_getElem? hls)
      rw [hreg]
      simp only [reports_prepend, List.map_nil, List.nil_append]
      rw [hready.empty_window hunseen.init hreg hl hshape hnot (hunseen.cleaned rfl) hvisits]
    | cons e es =>
      have hks : ∀ k ∈ (es.map fun e => Call.updateState a e.1 e.2) ++ [.sunset l junk],
          ∀ l, k ≠ .sunrise l := by
        intro k hk l heq
        subst heq
        simp at hk
      have hmin : min (e :: es).length 1 = 1 := by
        rw [List.length_cons]
        omega
      rw [hmin, List.map_cons, List.cons_append] at hused
      simp only [List.map_cons, List.cons_append]
      cases hreg : register ls cls with
      | error e' =>
        have hfail : call P s' (.updateState a e.1 e.2) = .error e' := by
          rw [call, updateState, hlookup]
          exact updateClass_unregistered hwf hempty hpos hunseen.init hc howner hready.found hls hreg
        simp only [runCalls, hfail]
        rfl
      | ok ls' =>
        simp only [reports_prepend]
        rw [reports, hready.window hunseen.init hreg hks hused, reports]

/-- A window whose second event is about an object that none of the instances is for. -/
theorem lazy_init_invisible_forkJoin :
    reports (runCalls (call forkJoinProgram)
      (window 7 callLifetime [(1, Key.of 5), (2, Key.of 6)] (Key.of 0)) (storeInit 2 4)) =
      .ok [.noInstance 1 2 (Key.of 6)] ∧
    reports (runCalls (call forkJoinProgram)
      (window 7 callLifetime [(1, Key.of 5), (2, Key.of 6)] (Key.of 0)) (storeInit 2 4)) =
    reports (runCalls (eagerCall forkJoinProgram 7)
      (window 7 callLifetime [(1, Key.of 5), (2, Key.of 6)] (Key.of 0)) (storeInit 2 4)) := by
  have hget : (classGet (storeInit 2 4) 7).any (fun r => r.2 = 1 ∧
      (r.1.tsClasses[1]?).any fun c => c.tcLimit = c.tcFree ∧ 0 < c.tcLimit) = true := by decide
  obtain ⟨⟨s₀, cls⟩, hget, hcheck⟩ := (Option.any_eq_true _ _).mp hget
  obtain ⟨rfl, hcheck⟩ := of_decide_eq_true hcheck
  obtain ⟨c, hc, hcheck⟩ := (Option.any_eq_true _ _).mp hcheck
  obtain ⟨hempty, hpos⟩ := of_decide_eq_true hcheck
  have hrun : LibRun forkJoinProgram 2 4 [] (storeInit 2 4) := .nil
  have hunseen : Unseen forkJoinProgram 7 callLifetime [(1, Key.of 5), (2, Key.of 6)] (Key.of 0)
      (storeInit 2 4) 1 ⟨0, 0, 1, 0, 2⟩ := by
    refine ⟨⟨by decide, by decide, by decide⟩, by decide +kernel, ?_, ?_⟩
    · intro h
      cases h
    · intro h
      cases h
  exact ⟨by decide +kernel, lazy_init_invisible hrun (by decide) hget hc hempty hpos hunseen⟩

/-- An automaton that must see an event before its lifetime ends. -/
def mustSee : Automaton where
  taTransitions := [[⟨0, 0, 1, 0, 2⟩], [⟨1, 0, 2, 0, 0⟩], [⟨2, 0, 3, 0, 4⟩]]
  taCleanupSymbol := 2
  taLifetime := callLifetime

/-- The same with its init transition on the second symbol. -/
def mustSeeSecond : Automaton where
  taTransitions := [[⟨1, 0, 2, 0, 0⟩], [⟨0, 0, 1, 0, 2⟩], [⟨2, 0, 3, 0, 4⟩]]
  taCleanupSymbol := 2
  taLifetime := callLifetime

/-- The lifetime ends and the event has not been seen, and the library reports nothing;
and the second event is out of turn, and the library, which has not found the init
transition, reports nothing. -/
theorem lazy_init_hides_failures :
    (reports (runCalls (call ⟨fun _ => mustSee, false⟩)
        (window 7 callLifetime [] Key.zero) (storeInit 2 4)) = .ok [] ∧
      reports (runCalls (eagerCall ⟨fun _ => mustSee, false⟩ 7)
        (window 7 callLifetime [] Key.zero) (storeInit 2 4)) =
        .ok [.badTransition 1 0 ⟨Key.zero, 1⟩ 2, .noInstance 1 2 Key.zero]) ∧
    reports (runCalls (call ⟨fun _ => mustSeeSecond, false⟩)
        (window 7 callLifetime [(0, Key.zero), (0, Key.zero)] Key.zero) (storeInit 2 4)) = .ok [] ∧
      reports (runCalls (eagerCall ⟨fun _ => mustSeeSecond, false⟩ 7)
        (window 7 callLifetime [(0, Key.zero), (0, Key.zero)] Key.zero) (storeInit 2 4)) =
        .ok [.badTransition 1 0 ⟨Key.zero, 2⟩ 0, .noInstance 1 0 Key.zero] := by
  decide +kernel

end Tesla.Runtime
