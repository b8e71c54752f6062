/-
# `Tesla.Runtime.Listener` — what is heard of one automaton, in every run

Whatever is called, the class of an automaton changes in two ways only: an event is delivered to
it, and a sunset calls on it, if the class has registered since the last one.  A `Listener` says
what an event comes to, in terms of its own: what the class holds after it, if anything, and what
is reported.  If it is right about one event (`Listener.Hears`), it is right about every run, and
the calls for other automata do not matter:

    sunrise            the events count from now on
    event              heard; the first one finds what the init transitions lead to
    sunset             the cleanup event, if the watch was taken up since the last sunset

`Heeded.explained` is the run lemma.  A `Reading` is how the classes and the reports are to be
read: the slots may matter or not, and so may the order of the reports of one event.
-/
import Tesla.Lib.Trace
import Tesla.Runtime.ClassTable
import Tesla.Runtime.LateInit
import Tesla.Runtime.LifetimeTable

namespace Tesla.Runtime

open Lib

/-! ## Failures of one class -/

/-- A failure of the class `cls`. -/
def Event.isFailureOf (cls : Nat) : Event → Bool
  | .badTransition x .. | .noInstance x .. => x = cls
  | _ => false

/-- The failures that are reported for a class. -/
def failuresOf (cls : Nat) (evs : List Event) : List Event := evs.filter (Event.isFailureOf cls)

@[simp] theorem failuresOf_nil (cls : Nat) : failuresOf cls [] = [] := rfl

@[simp] theorem failuresOf_append (cls : Nat) (evs evs' : List Event) :
    failuresOf cls (evs ++ evs') = failuresOf cls evs ++ failuresOf cls evs' :=
  List.filter_append ..

/-- If the notification is a failure, it is one of the class. -/
def Event.About (cls : Nat) (ev : Event) : Prop :=
  ∀ x, ev.isFailureOf x = (ev.isFailure && decide (cls = x))

theorem failuresOf_self {cls : Nat} {evs : List Event} (h : ∀ ev ∈ evs, ev.About cls) :
    failuresOf cls evs = failures evs := by
  refine List.filter_congr fun ev hev => ?_
  rw [h ev hev cls, decide_eq_true rfl, Bool.and_true]

theorem failuresOf_other {cls x : Nat} {evs : List Event} (h : ∀ ev ∈ evs, ev.About cls)
    (hne : cls ≠ x) : failuresOf x evs = [] := by
  refine List.filter_eq_nil_iff.mpr fun ev hev => ?_
  rw [h ev hev x, decide_eq_false hne, Bool.and_false]
  exact Bool.false_ne_true

theorem Event.about_of_quiet {cls : Nat} {ev : Event} (h : ev.isFailure = false) : ev.About cls := by
  intro x
  rw [h, Bool.false_and]
  cases ev with
  | badTransition | noInstance => cases h
  | _ => rfl

section Failures
variable {P : Program} {autom : Automaton} {cls symbol x : Nat} {pattern : Key} {c c' : Class}
  {ls ls' : LifetimeState} {d : Delivery} {evs evs' : List Event} {m : Nat}

theorem instEvents_about (i : Nat) (inst : Instance) :
    ∀ ev ∈ instEvents d i inst, ev.About d.cls := by
  intro ev hev
  obtain ⟨_, rfl⟩ | ⟨t, _, rfl | rfl⟩ := instEvents_cases hev
  · exact fun x => rfl
  · exact Event.about_of_quiet rfl
  · exact Event.about_of_quiet rfl

theorem Event.about_of_ofClone {ev : Event} (h : ev.ofClone = true) : ev.About cls := by
  cases ev with
  | badTransition | noInstance => cases h
  | _ => exact Event.about_of_quiet rfl

theorem Delivered.about (hd : Delivered d c evs m c' evs') (h : ∀ ev ∈ evs, ev.About d.cls) :
    ∀ ev ∈ evs', ev.About d.cls := by
  have hslots : ∀ ev ∈ slotEvents d 0 (c.tcInstances.take m), ev.About d.cls :=
    slotEvents_forall instEvents_about
  cases hd with
  | full =>
    simp only [List.forall_mem_append]
    refine ⟨h, hslots, fun ev hev => ?_⟩
    rw [List.mem_singleton.mp hev]
    exact Event.about_of_quiet rfl
  | cloned _ _ _ _ hq =>
    simp only [List.forall_mem_append]
    exact ⟨h, hslots, fun ev hev => Event.about_of_ofClone (hq ev hev)⟩
  | done _ _ hq =>
    simp only [List.forall_mem_append]
    refine ⟨h, hslots, fun ev hev => Event.about_of_ofClone (hq ev hev), fun ev hev => ?_⟩
    split at hev
    · cases hev
    · rw [List.mem_singleton.mp hev]
      exact fun x => rfl

/-- The failures that an update reports are those of its class. -/
theorem Updated.about (h : Updated P autom cls symbol pattern c ls c' ls' evs) :
    ∀ ev ∈ evs, ev.About cls := by
  have hquiet : ∀ {ev₀ : Event}, ev₀.isFailure = false → ∀ ev ∈ [ev₀], ev.About cls := by
    intro ev₀ h ev hev
    rw [List.mem_singleton.mp hev]
    exact Event.about_of_quiet h
  cases h with
  | returned hp => cases hp with
    | failed => exact hquiet rfl
  | delivered hp _ _ hd => cases hp with
    | ready => exact hd.about fun ev hev => by cases hev
    | init => exact hd.about (hquiet rfl)

end Failures

/-! ## The watch -/

/-- What an event does to what a class holds, and what is reported for class `cls`. -/
structure Listener (α ω : Type*) where
  start : α
  hear : (cls symbol : Nat) → Key → α → Option α × List ω

structure Watch (α : Type*) where
  begun : Bool
  state : Option α
  due : Bool
deriving DecidableEq

/-- Automaton `a` under watch. -/
def Listener.watch {α ω : Type*} (L : Listener α ω) (autom : Automaton) (a : Ptr) (cls : Nat) :
    Machine (Watch α) Call ω where
  init := ⟨false, none, false⟩
  step
    | w, .sunrise l => (if sameLifetime autom.taLifetime l then { w with begun := true } else w, [])
    | w, .updateState b symbol pattern =>
      if b = a ∧ w.begun then
        let r := L.hear cls symbol pattern (w.state.getD L.start)
        ({ w with state := r.1, due := w.due || w.state.isNone }, r.2)
      else (w, [])
    | w, .sunset l junk =>
      if sameLifetime autom.taLifetime l ∧ w.due then
        let r := L.hear cls autom.taCleanupSymbol (emptyKey junk) (w.state.getD L.start)
        ({ w with state := r.1, due := false }, r.2)
      else (w, [])

/-- How a class and the failures reported for it are read.

    fits      the events that may occur between the sunsets
    bears     the notifications that are not the end of it
    room      the sizes of a class
-/
structure Reading (α ω : Type*) where
  fits : Nat → Key → Prop
  bears : Nat → Event → Prop
  room : Nat → Prop
  holds : Class → Option α → Prop
  reports : Nat → List Event → List ω → Prop

variable {α ω : Type*} {L : Listener α ω} {R : Reading α ω}
  {P : Program} {a : Ptr} {s s' t : Store} {cls li x : Nat} {c c' : Class}
  {ls ls' : LifetimeState} {evs evs' : List Event} {key : Key} {l : Lifetime} {k : Call}
  {ks : List Call} {classes instances : UInt32}

/-- The listener is right about one event. -/
structure Listener.Hears (L : Listener α ω) (R : Reading α ω) (P : Program) (a : Ptr) : Prop where
  same : ∀ cls x symbol pattern (q : α),
    (L.hear cls symbol pattern q).1 = (L.hear x symbol pattern q).1
  stays : ∀ cls symbol pattern (q : α), R.fits symbol pattern →
    (L.hear cls symbol pattern q).1.isSome = true
  unused : ∀ c : Class, R.holds c none ↔ c.tcLimit = c.tcFree
  claim : ∀ (c : Class) (q : Option α) (b : Ptr), R.holds c q →
    R.holds { c with tcAutomaton := some b } q
  nothing : ∀ cls, R.reports cls [] []
  append : ∀ cls es es' os os', R.reports cls es os → R.reports cls es' os' →
    R.reports cls (es ++ es') (os ++ os')
  heard : ∀ (cls symbol : Nat) (pattern : Key) (c c' : Class) (ls ls' : LifetimeState)
    (q : Option α) (evs : List Event), c.WF → R.room c.tcLimit → R.holds c q →
    (R.fits symbol pattern ∨ symbol = (P.automaton a).taCleanupSymbol ∧ pattern.tkMask = 0) →
    (∀ ev ∈ evs, R.bears cls ev) →
    updateFound P (P.automaton a) cls symbol pattern c ls = .ok (c', ls', evs) →
    R.holds c' (L.hear cls symbol pattern (q.getD L.start)).1 ∧
      R.reports cls (failuresOf cls evs) (L.hear cls symbol pattern (q.getD L.start)).2 ∧
      if q.isSome then ls' = ls else register ls cls = .ok ls'

/-- The calls for automaton `a` are as its instrumentation makes them. -/
def Reading.Ordinary (R : Reading α ω) (a : Ptr) : Call → Prop
  | .updateState b symbol pattern => b = a → R.fits symbol pattern
  | .sunrise _ | .sunset .. => True

/-- When the class of `a` is about to be registered, one of the static slots is free. -/
def HasRoom (P : Program) (a : Ptr) (s : Store) : Call → Prop
  | .updateState b _ _ => b = a → ∀ r ∈ classGet s a, ∀ c ∈ r.1.tsClasses[r.2]?,
      c.tcLimit = c.tcFree → ∀ li ∈ s.findLifetime (P.automaton a).taLifetime,
        ∀ ls ∈ s.tsLifetimes[li]?, none ∈ ls.tlsClasses
  | .sunrise _ | .sunset .. => True

instance (P : Program) (a : Ptr) (s : Store) : (k : Call) → Decidable (HasRoom P a s k)
  | .updateState .. => inferInstanceAs (Decidable (_ → ∀ r ∈ _, ∀ c ∈ _, _ → ∀ li ∈ _, ∀ ls ∈ _, _))
  | .sunrise _ | .sunset .. => inferInstanceAs (Decidable True)

/-- A call that returns, with its notifications. -/
structure Heeds (R : Reading α ω) (P : Program) (a : Ptr) (s : Store) (k : Call) (s' : Store)
    (evs : List Event) : Prop where
  call : call P s k = .ok (s', evs)
  ordinary : R.Ordinary a k
  room : HasRoom P a s k
  bears : ∀ cls : Nat, s'.owners[cls]? = some (some a) → ∀ ev ∈ evs, R.bears cls ev

/-- The runs of the library that the reading is about. -/
abbrev Heeded (R : Reading α ω) (P : Program) (a : Ptr) (classes instances : UInt32) :
    List Call → Store → List Event → Prop :=
  Trace (Heeds R P a) (storeInit classes instances)

theorem Heeded.run (h : Heeded R P a classes instances ks s evs) : LibRun P classes instances ks s :=
  Trace.run (fun hs => ⟨_, hs.call⟩) h

/-! ## Registrations of other classes -/

/-- The class stands where it stood among the static slots, and nowhere new among the dynamic
ones. -/
structure Spares (cls : Nat) (ls ls' : LifetimeState) : Prop where
  static : ∀ j : Nat, ls'.tlsClasses[j]? = some (some cls) ↔ ls.tlsClasses[j]? = some (some cls)
  dynamic : ∀ j : Nat, ls'.tlsDynClasses[j]? = some (some cls) →
    ls.tlsDynClasses[j]? = some (some cls)

theorem Spares.refl (cls : Nat) (ls : LifetimeState) : Spares cls ls ls :=
  ⟨fun _ => Iff.rfl, fun _ h => h⟩

theorem Spares.trans {ls₀ : LifetimeState} (h : Spares cls ls ls') (h' : Spares cls ls' ls₀) :
    Spares cls ls ls₀ :=
  ⟨fun j => (h'.static j).trans (h.static j), fun j hj => h.dynamic j (h'.dynamic j hj)⟩

theorem growDyn_static (ls : LifetimeState) : (growDyn ls).tlsClasses = ls.tlsClasses := by
  rw [growDyn]
  split <;> rfl

theorem growDyn_dynamic {j : Nat} (h : (growDyn ls).tlsDynClasses[j]? = some (some cls)) :
    ls.tlsDynClasses[j]? = some (some cls) := by
  rw [growDyn] at h
  split at h
  · cases List.eq_of_mem_replicate (List.mem_of_getElem? h)
  · simp only at h
    rw [List.getElem?_append] at h
    split at h
    · rw [List.getElem?_take] at h
      split at h
      · exact h
      · cases h
    · cases List.eq_of_mem_replicate (List.mem_of_getElem? h)

theorem register_spares (hne : x ≠ cls) (h : register ls x = .ok ls') : Spares cls ls ls' := by
  have hx : (some (some x) : Option (Option Nat)) ≠ some (some cls) := by
    simpa using hne
  rw [register] at h
  split at h
  · next i hi =>
    cases h
    obtain ⟨hlt, hnone, _⟩ := List.findIdx?_eq_some_iff_getElem.mp hi
    refine ⟨fun j => ?_, fun _ h => h⟩
    by_cases hij : i = j
    · subst hij
      rw [List.getElem?_set_self hlt, List.getElem?_eq_getElem hlt, Option.isNone_iff_eq_none.mp hnone]
      simpa using hne
    · rw [List.getElem?_set_ne hij]
  · simp only at h
    split at h
    · cases h
      refine ⟨fun j => by simp only [growDyn_static], fun j hj => ?_⟩
      simp only [List.getElem?_set] at hj
      split at hj
      · split at hj
        · exact absurd hj hx
        · cases hj
      · exact growDyn_dynamic hj
    · cases h

theorem Updated.spares {autom : Automaton} {symbol : Nat} (hne : x ≠ cls)
    (h : Updated P autom x symbol key c ls c' ls' evs) : Spares cls ls ls' := by
  cases h with
  | returned => exact .refl cls ls
  | delivered hp => cases hp with
    | ready => exact .refl cls ls
    | init _ _ _ _ hreg => exact register_spares hne hreg

/-! ## Events for other classes -/

/-- From `s` to `s'` nothing has happened to the class: the lifetime slot `li` lists it where it
did, and no failure of it has been added to the reports. -/
structure PassesBy (cls li : Nat) (s s' : Store) (evs evs' : List Event) : Prop where
  classes : s'.tsClasses[cls]? = s.tsClasses[cls]?
  bounds : s'.bounds = s.bounds
  slot : ∀ ls, s.tsLifetimes[li]? = some ls → ∃ ls', s'.tsLifetimes[li]? = some ls' ∧
    Spares cls ls ls'
  quiet : failuresOf cls evs' = failuresOf cls evs
  shape : (∀ ls ∈ s.tsLifetimes, ls.Shape) → ∀ ls ∈ s'.tsLifetimes, ls.Shape

theorem PassesBy.refl (cls li : Nat) (s : Store) (evs : List Event) : PassesBy cls li s s evs evs :=
  ⟨rfl, rfl, fun ls hls => ⟨ls, hls, .refl cls ls⟩, rfl, fun h => h⟩

theorem PassesBy.trans {evs₀ : List Event} (h : PassesBy cls li s s' evs evs')
    (h' : PassesBy cls li s' t evs' evs₀) : PassesBy cls li s t evs evs₀ := by
  refine ⟨h'.classes.trans h.classes, h'.bounds.trans h.bounds, ?_, h'.quiet.trans h.quiet,
    fun hs => h'.shape (h.shape hs)⟩
  intro ls hls
  obtain ⟨ls₁, hls₁, hspares⟩ := h.slot ls hls
  obtain ⟨ls₂, hls₂, hspares'⟩ := h'.slot ls₁ hls₁
  exact ⟨ls₂, hls₂, hspares.trans hspares'⟩

/-- An update of another class. -/
theorem updateClassState_passesBy {symbol : Nat} (li : Nat) (evs : List Event) (hne : x ≠ cls)
    (h : updateClassState P x symbol key s = .ok (s', evs')) :
    PassesBy cls li s s' evs (evs ++ evs') := by
  have hbounds := updateClassState_bounds h
  have hshape : (∀ ls ∈ s.tsLifetimes, ls.Shape) → ∀ ls ∈ s'.tsLifetimes, ls.Shape :=
    fun hs => updateClassState_shape hs h
  obtain ⟨c, b, hc, _, ⟨_, rfl, rfl⟩ | ⟨i, slot, c', slot', _, hslot, hu, rfl⟩⟩ :=
    updateClassState_spec h
  · refine ⟨rfl, rfl, fun ls hls => ⟨ls, hls, .refl cls ls⟩, ?_, hshape⟩
    rw [failuresOf_append]
    exact List.append_nil _
  · refine ⟨List.getElem?_set_ne hne, hbounds, ?_, ?_, hshape⟩
    · intro ls hls
      by_cases hi : i = li
      · subst hi
        rw [hls] at hslot
        cases hslot
        exact ⟨slot', List.getElem?_set_self (List.getElem?_eq_some_iff.mp hls).1, hu.spares hne⟩
      · exact ⟨ls, (List.getElem?_set_ne hi).trans hls, .refl cls ls⟩
    · rw [failuresOf_append, failuresOf_other hu.about hne, List.append_nil]

theorem cleanupClass_passesBy (li : Nat) (evs : List Event) (hne : x ≠ cls)
    (h : cleanupClass P key x s = .ok (s', evs')) :
    PassesBy cls li s s' evs (evs ++ evs') := by
  obtain ⟨symbol, hupd⟩ := cleanupClass_eq h
  exact updateClassState_passesBy li evs hne hupd

/-- A way to look at a lifetime's lists in which no class appears that another one registers. -/
def Steady (cls : Nat) (slots : LifetimeState → List (Option Nat)) : Prop :=
  ∀ ls ls', Spares cls ls ls' → ∀ j : Nat, (slots ls')[j]? = some (some cls) →
    (slots ls)[j]? = some (some cls)

theorem steady_static (cls : Nat) : Steady cls LifetimeState.tlsClasses :=
  fun _ _ h j => (h.static j).mp

theorem steady_dynamic (cls : Nat) : Steady cls LifetimeState.tlsDynClasses :=
  fun _ _ h j => h.dynamic j

/-- A loop of a sunset that does not come to the class. -/
theorem sunsetLoop_passesBy {slots : LifetimeState → List (Option Nat)} (hsteady : Steady cls slots)
    {is : List Nat} : ∀ {s : Store} {ls : LifetimeState} {evs : List Event},
    s.tsLifetimes[li]? = some ls → (∀ i ∈ is, (slots ls)[i]? ≠ some (some cls)) →
    sunsetLoop P key li slots is s evs = .ok (s', evs') → PassesBy cls li s s' evs evs' := by
  induction is with
  | nil =>
    intro s ls evs _ _ h
    cases h
    exact .refl ..
  | cons i is ih =>
    intro s ls evs hls hnot h
    obtain ⟨hi, his⟩ := List.forall_mem_cons.mp hnot
    rw [sunsetLoop, hls, Option.bind_some] at h
    split at h
    · cases h
      exact .refl ..
    · next x hx =>
      have hne : x ≠ cls := by
        rintro rfl
        exact hi (Option.join_eq_some_iff.mp hx)
      split at h
      · cases h
      · next t evs₁ hclean =>
        have hpass := cleanupClass_passesBy li evs hne hclean
        obtain ⟨ls₁, hls₁, hspares⟩ := hpass.slot ls hls
        refine hpass.trans (ih hls₁ ?_ h)
        intro j hj hmem
        exact his j hj (hsteady ls ls₁ hspares j hmem)

/-! ## Events for the class itself -/

/-- The class of a plain automaton, between two calls. -/
structure Attends (R : Reading α ω) (P : Program) (a : Ptr) (cls li : Nat) (s : Store) (c : Class)
    (q : Option α) : Prop where
  mem : s.tsClasses[cls]? = some c
  owner : c.tcAutomaton = some a
  wf : c.WF
  room : R.room c.tcLimit
  found : s.findLifetime (P.automaton a).taLifetime = some li
  holds : R.holds c q

theorem Attends.passedBy {q : Option α} (h : Attends R P a cls li s c q)
    (hpass : PassesBy cls li s s' evs evs') : Attends R P a cls li s' c q :=
  ⟨hpass.classes.trans h.mem, h.owner, h.wf, h.room, (findLifetime_congr hpass.bounds _).trans h.found,
    h.holds⟩

/-- One event for the class. -/
theorem Attends.heard {symbol : Nat} {q : Option α} (h : Attends R P a cls li s c q)
    (hL : L.Hears R P a) (hls : s.tsLifetimes[li]? = some ls)
    (hfits : R.fits symbol key ∨ symbol = (P.automaton a).taCleanupSymbol ∧ key.tkMask = 0)
    (hok : updateClassState P cls symbol key s = .ok (s', evs)) (hbears : ∀ ev ∈ evs, R.bears cls ev) :
    ∃ c' ls', Attends R P a cls li s' c' (L.hear cls symbol key (q.getD L.start)).1 ∧
      s'.tsLifetimes[li]? = some ls' ∧
      (if q.isSome then ls' = ls else register ls cls = .ok ls') ∧
      R.reports cls (failuresOf cls evs) (L.hear cls symbol key (q.getD L.start)).2 := by
  have hbounds := updateClassState_bounds hok
  rw [updateClassState, h.mem] at hok
  simp only [h.owner, h.found, hls] at hok
  split at hok
  · cases hok
  · next c' ls' evs' hupd =>
    cases hok
    have hu := updateFound_spec hupd
    obtain ⟨hafter, hfail, hreg⟩ :=
      hL.heard cls symbol key c c' ls ls' q evs h.wf h.room h.holds hfits hbears hupd
    refine ⟨c', ls', ⟨?_, hu.tcAutomaton.trans h.owner, h.wf.updated hu, ?_, ?_, hafter⟩, ?_, hreg,
      hfail⟩
    · exact List.getElem?_set_self (List.getElem?_eq_some_iff.mp h.mem).1
    · rw [hu.tcLimit]
      exact h.room
    · rw [findLifetime_congr hbounds]
      exact h.found
    · exact List.getElem?_set_self (List.getElem?_eq_some_iff.mp hls).1

/-- From place `i` on, the class stands in the list once. -/
def StandsOnce (cls : Nat) (slots : List (Option Nat)) (i : Nat) : Prop :=
  ∃ p, i ≤ p ∧ ∀ j, i ≤ j → (slots[j]? = some (some cls) ↔ j = p)

/-- In front of a class in the static slots there is no NULL. -/
theorem LifetimeState.Shape.solid_before (hs : ls.Shape) {p i : Nat}
    (hp : ls.tlsClasses[p]? = some (some cls)) (hi : i ≤ p) :
    ∃ x, ls.tlsClasses[i]? = some (some x) := by
  obtain ⟨xs, n, hst⟩ := hs.static
  have hlt : p < xs.length := by
    by_contra hge
    rw [hst, List.getElem?_append_right (by simpa using hge)] at hp
    cases List.eq_of_mem_replicate (List.mem_of_getElem? hp)
  have hmap : (xs.map some)[i]? = some (some (xs.get ⟨i, by omega⟩)) := by
    rw [List.getElem?_map, List.getElem?_eq_getElem (by omega)]
    rfl
  refine ⟨xs.get ⟨i, by omega⟩, ?_⟩
  rw [hst, List.getElem?_append_left (by simp; omega), hmap]

theorem StandsOnce.next {slots slots' : List (Option Nat)} {i : Nat} (h : StandsOnce cls slots i)
    (hi : slots[i]? ≠ some (some cls))
    (hsame : ∀ j : Nat, slots'[j]? = some (some cls) ↔ slots[j]? = some (some cls)) :
    StandsOnce cls slots' (i + 1) := by
  obtain ⟨p, hle, hp⟩ := h
  have hne : p ≠ i := by
    rintro rfl
    exact hi ((hp p (Nat.le_refl p)).mpr rfl)
  refine ⟨p, by omega, fun j hj => ?_⟩
  rw [hsame, hp j (by omega)]

/-- What a sunset has done when it has called on the class once. -/
structure CalledOn (L : Listener α ω) (R : Reading α ω) (P : Program) (a : Ptr) (cls li : Nat) (key : Key) (q : α) (s s' : Store)
    (evs evs' : List Event) : Prop where
  attends : ∃ c', Attends R P a cls li s' c'
    (L.hear cls (P.automaton a).taCleanupSymbol key q).1
  bounds : s'.bounds = s.bounds
  slot : ∀ ls, s.tsLifetimes[li]? = some ls → ∃ ls', s'.tsLifetimes[li]? = some ls' ∧
    Spares cls ls ls'
  failures : ∃ new, failuresOf cls evs' = failuresOf cls evs ++ new ∧
    R.reports cls new (L.hear cls (P.automaton a).taCleanupSymbol key q).2
  shape : (∀ ls ∈ s.tsLifetimes, ls.Shape) → ∀ ls ∈ s'.tsLifetimes, ls.Shape

theorem CalledOn.after {q : α} {evs₀ : List Event} (hpass : PassesBy cls li s s' evs evs')
    (h : CalledOn L R P a cls li key q s' t evs' evs₀) : CalledOn L R P a cls li key q s t evs evs₀ := by
  refine ⟨h.attends, h.bounds.trans hpass.bounds, ?_, by rw [← hpass.quiet]; exact h.failures,
    fun hs => h.shape (hpass.shape hs)⟩
  intro ls hls
  obtain ⟨ls₁, hls₁, hspares⟩ := hpass.slot ls hls
  obtain ⟨ls₂, hls₂, hspares'⟩ := h.slot ls₁ hls₁
  exact ⟨ls₂, hls₂, hspares.trans hspares'⟩

theorem CalledOn.before {q : α} {evs₀ : List Event} (h : CalledOn L R P a cls li key q s s' evs evs')
    (hpass : PassesBy cls li s' t evs' evs₀) : CalledOn L R P a cls li key q s t evs evs₀ := by
  obtain ⟨c', hc'⟩ := h.attends
  refine ⟨⟨c', hc'.passedBy hpass⟩, hpass.bounds.trans h.bounds, ?_, by rw [hpass.quiet]; exact h.failures,
    fun hs => hpass.shape (h.shape hs)⟩
  intro ls hls
  obtain ⟨ls₁, hls₁, hspares⟩ := h.slot ls hls
  obtain ⟨ls₂, hls₂, hspares'⟩ := hpass.slot ls₁ hls₁
  exact ⟨ls₂, hls₂, hspares.trans hspares'⟩

/-- The cleanup event for the class. -/
theorem Attends.cleaned {q : α} (evs : List Event) (h : Attends R P a cls li s c (some q))
    (hL : L.Hears R P a) (hls : s.tsLifetimes[li]? = some ls) (hmask : key.tkMask = 0)
    (hok : cleanupClass P key cls s = .ok (s', evs')) (hbears : ∀ ev ∈ evs', R.bears cls ev) :
    CalledOn L R P a cls li key q s s' evs (evs ++ evs') := by
  have hupd : updateClassState P cls (P.automaton a).taCleanupSymbol key s = .ok (s', evs') := by
    rw [← hok, cleanupClass, h.mem, Option.bind_some, h.owner]
  obtain ⟨c', ls', hattends, hls', hsame, hfail⟩ := h.heard hL hls (.inr ⟨rfl, hmask⟩) hupd hbears
  refine ⟨⟨c', hattends⟩, updateClassState_bounds hupd, ?_, ⟨_, failuresOf_append .., hfail⟩,
    fun hs => updateClassState_shape hs hupd⟩
  intro ls₀ hls₀
  obtain rfl := Option.some.inj (hls₀.symm.trans hls)
  exact ⟨ls', hls', hsame ▸ .refl cls ls₀⟩

/-- What has been reported stays reported. -/
theorem sunsetLoop_extends {slots : LifetimeState → List (Option Nat)} {is : List Nat} :
    ∀ {s : Store} {evs : List Event}, sunsetLoop P key li slots is s evs = .ok (s', evs') →
      evs <+: evs' := by
  induction is with
  | nil =>
    intro s evs h
    cases h
    exact List.prefix_refl _
  | cons i is ih =>
    intro s evs h
    rw [sunsetLoop] at h
    split at h
    · cases h
      exact List.prefix_refl _
    · split at h
      · cases h
      · exact (List.prefix_append ..).trans (ih h)

/-- The static loop of a sunset that comes to the class. -/
theorem sunsetLoop_callsOn {q : α} {n : Nat} (hL : L.Hears R P a) (hmask : key.tkMask = 0) :
    ∀ {i : Nat} {s : Store} {ls : LifetimeState} {evs : List Event},
    Attends R P a cls li s c (some q) → s.tsLifetimes[li]? = some ls →
    (∀ ls ∈ s.tsLifetimes, ls.Shape) → i + n = staticClasses → StandsOnce cls ls.tlsClasses i →
    sunsetLoop P key li LifetimeState.tlsClasses (List.range' i n) s evs = .ok (s', evs') →
    (∀ ev ∈ evs', R.bears cls ev) → CalledOn L R P a cls li key q s s' evs evs' := by
  induction n with
  | zero =>
    intro i s ls evs _ hls hshape hn hstands _ _
    obtain ⟨p, hle, hp⟩ := hstands
    have hlt := (List.getElem?_eq_some_iff.mp ((hp p hle).mpr rfl)).1
    rw [(hshape ls (List.mem_of_getElem? hls)).statics] at hlt
    omega
  | succ n ih =>
    intro i s ls evs h hls hshape hn hstands hok hbears
    have hs := hshape ls (List.mem_of_getElem? hls)
    obtain ⟨p, hle, hp⟩ := hstands
    obtain ⟨x, hx⟩ := hs.solid_before ((hp p hle).mpr rfl) hle
    rw [List.range'_succ, sunsetLoop, hls, Option.bind_some, hx] at hok
    simp only [Option.join_some] at hok
    split at hok
    · cases hok
    · next t evs₁ hclean =>
      by_cases hxc : x = cls
      · subst hxc
        obtain rfl := (hp i (Nat.le_refl i)).mp hx
        have hcalled := h.cleaned evs hL hls hmask hclean fun ev hev =>
          hbears ev ((sunsetLoop_extends hok).subset (List.mem_append_right _ hev))
        obtain ⟨ls₁, hls₁, hspares⟩ := hcalled.slot ls hls
        refine hcalled.before (sunsetLoop_passesBy (steady_static x) hls₁ ?_ hok)
        intro j hj hmem
        have hlt := (List.mem_range'_1.mp hj).1
        have := (hp j (by omega)).mp ((hspares.static j).mp hmem)
        omega
      · have hpass := cleanupClass_passesBy li evs hxc hclean
        obtain ⟨ls₁, hls₁, hspares⟩ := hpass.slot ls hls
        have hnot : ls.tlsClasses[i]? ≠ some (some cls) := by
          rw [hx]
          simpa using hxc
        exact .after hpass (ih (h.passedBy hpass) hls₁ (hpass.shape hshape) (by omega)
          (StandsOnce.next ⟨p, hle, hp⟩ hnot hspares.static) hok hbears)

/-! ## Sunsets -/

/-- The two loops of a sunset. -/
theorem sunset_loops {junk : Key} (hok : sunset P l junk s = .ok (s', evs'))
    (hli : s.findLifetime l = some li) :
    ∃ t₁ evs₁ n t₂, sunsetLoop P (emptyKey junk) li LifetimeState.tlsClasses
        (List.range' 0 staticClasses) s [.sunset l] = .ok (t₁, evs₁) ∧
      sunsetLoop P (emptyKey junk) li LifetimeState.tlsDynClasses (List.range n)
        (t₁.modifyLifetime li LifetimeState.clearStatic) evs₁ = .ok (t₂, evs') ∧
      s' = t₂.modifyLifetime li LifetimeState.clearDynamic := by
  rw [sunset] at hok
  split at hok
  · rw [hli] at hok
    simp only [sunsetStatic, sunsetDynamic] at hok
    split at hok
    · cases hok
    · next t evs₀ hstatic =>
      split at hstatic
      · cases hstatic
      · next hloop =>
        cases hstatic
        split at hok
        · cases hok
        · next hloop' =>
          cases hok
          rw [List.range_eq_range'] at hloop
          exact ⟨_, _, _, _, hloop, hloop', rfl⟩
  · cases hok

theorem getElem?_modifyLifetime {f : LifetimeState → LifetimeState}
    (h : (s.modifyLifetime li f).tsLifetimes[li]? = some ls') :
    ∃ ls, s.tsLifetimes[li]? = some ls ∧ ls' = f ls := by
  simp only [Store.modifyLifetime, List.getElem?_modify, if_true] at h
  obtain ⟨ls, hls, rfl⟩ := Option.map_eq_some_iff.mp h
  exact ⟨ls, hls, rfl⟩

theorem Attends.modifyLifetime {q : Option α} (h : Attends R P a cls li s c q) (i : Nat)
    {f : LifetimeState → LifetimeState}
    (hf : ∀ ls, (f ls).tlsBegin = ls.tlsBegin ∧ (f ls).tlsEnd = ls.tlsEnd) :
    Attends R P a cls li (s.modifyLifetime i f) c q :=
  ⟨h.mem, h.owner, h.wf, h.room, (findLifetime_congr (bounds_modifyLifetime i hf) _).trans h.found,
    h.holds⟩

theorem not_mentions_of_spares (h : Spares cls ls ls') (hnot : ¬ ls.Mentions cls) :
    ¬ ls'.Mentions cls := by
  rintro (hmem | hmem)
  · obtain ⟨j, hj⟩ := List.mem_iff_getElem?.mp hmem
    exact hnot (.inl (List.mem_of_getElem? ((h.static j).mp hj)))
  · obtain ⟨j, hj⟩ := List.mem_iff_getElem?.mp hmem
    exact hnot (.inr (List.mem_of_getElem? (h.dynamic j hj)))

/-- After the static loop the static slots are zeroed, and the class is in none of the lists if it
was not in the dynamic one. -/
theorem not_mentions_clearStatic (hs : ls'.Shape) (h : Spares cls ls ls')
    (hdyn : some cls ∉ ls.tlsDynClasses) : ¬ ls'.clearStatic.Mentions cls := by
  rintro (hmem | hmem)
  · have hzero : ls'.clearStatic.tlsClasses = List.replicate staticClasses none := by
      show clearSlots staticClasses ls'.tlsClasses = _
      rw [clearSlots, hs.statics, List.drop_of_length_le (by rw [hs.statics]), List.append_nil,
        Nat.min_self]
    rw [hzero] at hmem
    cases List.eq_of_mem_replicate hmem
  · obtain ⟨j, hj⟩ := List.mem_iff_getElem?.mp hmem
    exact hdyn (List.mem_of_getElem? (h.dynamic j hj))

theorem not_mentions_clearDynamic (hnot : ¬ ls.Mentions cls) : ¬ ls.clearDynamic.Mentions cls :=
  fun h => hnot (h.imp_right mem_of_mem_clearSlots)

/-- What the second half of a sunset does to a class that the first half has left unlisted. -/
theorem sunsetLoop_unlisted {n : Nat} {f : LifetimeState → LifetimeState}
    (hls : s.tsLifetimes[li]? = some ls) (hnot : ¬ (f ls).Mentions cls)
    (hok : sunsetLoop P key li LifetimeState.tlsDynClasses (List.range n) (s.modifyLifetime li f) evs =
      .ok (t, evs')) :
    PassesBy cls li (s.modifyLifetime li f) t evs evs' ∧
      ∀ ls', (t.modifyLifetime li LifetimeState.clearDynamic).tsLifetimes[li]? = some ls' →
        ¬ ls'.Mentions cls := by
  have hls₁ : (s.modifyLifetime li f).tsLifetimes[li]? = some (f ls) := by
    simp only [Store.modifyLifetime, List.getElem?_modify, if_true, hls]
    rfl
  have hpass : PassesBy cls li (s.modifyLifetime li f) t evs evs' := by
    refine sunsetLoop_passesBy (steady_dynamic cls) hls₁ ?_ hok
    intro i _ hi
    exact hnot (.inr (List.mem_of_getElem? hi))
  refine ⟨hpass, ?_⟩
  intro ls' hls'
  obtain ⟨ls₂, hls₂, rfl⟩ := getElem?_modifyLifetime hls'
  obtain ⟨ls₃, hls₃, hspares⟩ := hpass.slot _ hls₁
  obtain rfl := Option.some.inj (hls₂.symm.trans hls₃)
  exact not_mentions_clearDynamic (not_mentions_of_spares hspares hnot)

/-- A sunset that does not list the class. -/
theorem sunset_passesBy {junk : Key} (hok : sunset P l junk s = .ok (s', evs'))
    (hli : s.findLifetime l = some li) (hls : s.tsLifetimes[li]? = some ls)
    (hs : ∀ ls ∈ s.tsLifetimes, ls.Shape) (hnot : ¬ ls.Mentions cls) :
    s'.tsClasses[cls]? = s.tsClasses[cls]? ∧ failuresOf cls evs' = [] ∧
      ∀ ls', s'.tsLifetimes[li]? = some ls' → ¬ ls'.Mentions cls := by
  obtain ⟨t₁, evs₁, n, t₂, hstatic, hdynamic, rfl⟩ := sunset_loops hok hli
  have hpass : PassesBy cls li s t₁ [.sunset l] evs₁ := by
    refine sunsetLoop_passesBy (steady_static cls) hls ?_ hstatic
    intro i _ hi
    exact hnot (.inl (List.mem_of_getElem? hi))
  obtain ⟨ls₁, hls₁, hspares⟩ := hpass.slot ls hls
  have hclear : ¬ ls₁.clearStatic.Mentions cls :=
    not_mentions_clearStatic (hpass.shape hs ls₁ (List.mem_of_getElem? hls₁)) hspares
      fun hmem => hnot (.inr hmem)
  obtain ⟨hpass', hafter⟩ := sunsetLoop_unlisted (f := LifetimeState.clearStatic) hls₁ hclear hdynamic
  refine ⟨?_, ?_, hafter⟩
  · exact hpass'.classes.trans hpass.classes
  · rw [hpass'.quiet, hpass.quiet]
    rfl

/-- A sunset that has the class in a static slot. -/
theorem sunset_callsOn {junk : Key} {q : α} (hL : L.Hears R P a)
    (hok : sunset P l junk s = .ok (s', evs')) (hli : s.findLifetime l = some li)
    (hls : s.tsLifetimes[li]? = some ls) (hs : ∀ ls ∈ s.tsLifetimes, ls.Shape)
    (hattends : Attends R P a cls li s c (some q)) (hstands : StandsOnce cls ls.tlsClasses 0)
    (hdyn : some cls ∉ ls.tlsDynClasses) (hbears : ∀ ev ∈ evs', R.bears cls ev) :
    (∃ c', Attends R P a cls li s' c'
        (L.hear cls (P.automaton a).taCleanupSymbol (emptyKey junk) q).1) ∧
      R.reports cls (failuresOf cls evs')
        (L.hear cls (P.automaton a).taCleanupSymbol (emptyKey junk) q).2 ∧
      ∀ ls', s'.tsLifetimes[li]? = some ls' → ¬ ls'.Mentions cls := by
  obtain ⟨t₁, evs₁, n, t₂, hstatic, hdynamic, rfl⟩ := sunset_loops hok hli
  have hcalled := sunsetLoop_callsOn hL rfl hattends hls hs (Nat.zero_add _) hstands hstatic
    fun ev hev => hbears ev ((sunsetLoop_extends hdynamic).subset hev)
  obtain ⟨ls₁, hls₁, hspares⟩ := hcalled.slot ls hls
  have hclear : ¬ ls₁.clearStatic.Mentions cls :=
    not_mentions_clearStatic (hcalled.shape hs ls₁ (List.mem_of_getElem? hls₁)) hspares hdyn
  obtain ⟨hpass', hafter⟩ := sunsetLoop_unlisted (f := LifetimeState.clearStatic) hls₁ hclear hdynamic
  obtain ⟨c', hc'⟩ := hcalled.attends
  refine ⟨⟨c', ?_⟩, ?_, hafter⟩
  · have hmid := hc'.modifyLifetime li (f := LifetimeState.clearStatic) fun _ => ⟨rfl, rfl⟩
    exact (hmid.passedBy hpass').modifyLifetime li fun _ => ⟨rfl, rfl⟩
  · obtain ⟨new, hnew, hreport⟩ := hcalled.failures
    rw [hpass'.quiet, hnew]
    exact hreport

/-! ## The library and the watch -/

/-- The lists have the class once among the static slots, or not at all. -/
def Enrolled (cls : Nat) (ls : LifetimeState) : Bool → Prop
  | true => StandsOnce cls ls.tlsClasses 0 ∧ some cls ∉ ls.tlsDynClasses
  | false => ¬ ls.Mentions cls

theorem Enrolled.spares {due : Bool} (h : Enrolled cls ls due) (hspares : Spares cls ls ls') :
    Enrolled cls ls' due := by
  cases due with
  | false => exact not_mentions_of_spares hspares h
  | true =>
    obtain ⟨⟨p, hle, hp⟩, hdyn⟩ := h
    refine ⟨⟨p, hle, fun j hj => (hspares.static j).trans (hp j hj)⟩, fun hmem => ?_⟩
    obtain ⟨j, hj⟩ := List.mem_iff_getElem?.mp hmem
    exact hdyn (List.mem_of_getElem? (hspares.dynamic j hj))

/-- Registering a class that is not in the lists puts it in a static slot, if one is free. -/
theorem Enrolled.register (hnot : Enrolled cls ls false) (hroom : none ∈ ls.tlsClasses)
    (h : register ls cls = .ok ls') : Enrolled cls ls' true := by
  have hsome : (ls.tlsClasses.findIdx? Option.isNone).isSome = true := by
    rw [List.findIdx?_isSome, List.any_eq_true]
    exact ⟨none, hroom, rfl⟩
  obtain ⟨p, hp⟩ := Option.isSome_iff_exists.mp hsome
  obtain ⟨hlt, _⟩ := List.findIdx?_eq_some_iff_getElem.mp hp
  simp only [Runtime.register, hp] at h
  cases h
  refine ⟨⟨p, Nat.zero_le p, fun j _ => ?_⟩, fun hmem => hnot (.inr hmem)⟩
  by_cases hj : p = j
  · subst hj
    simp only [List.getElem?_set_self hlt]
  · rw [List.getElem?_set_ne hj]
    constructor
    · exact fun hmem => absurd (.inl (List.mem_of_getElem? hmem)) hnot
    · exact fun heq => absurd heq.symm hj

/-- The class of `a`, when there is one, is as the watch has it. -/
structure Tracks (R : Reading α ω) (P : Program) (a : Ptr) (s : Store) (w : Watch α) : Prop where
  begun : w.begun = (s.findLifetime (P.automaton a).taLifetime).isSome
  due : w.due = true → w.begun = true ∧ w.state.isSome = true
  unclaimed : (∀ cls : Nat, s.owners[cls]? ≠ some (some a)) → w.state = none ∧ w.due = false
  holds : ∀ (cls : Nat) (c : Class), s.tsClasses[cls]? = some c → c.tcAutomaton = some a →
    R.holds c w.state
  enrolled : ∀ (cls li : Nat) (ls : LifetimeState), s.owners[cls]? = some (some a) →
    s.findLifetime (P.automaton a).taLifetime = some li → s.tsLifetimes[li]? = some ls →
    Enrolled cls ls w.due

theorem Tracks.init : Tracks R P a (storeInit classes instances) ⟨false, none, false⟩ := by
  have hnone : ∀ cls : Nat, (storeInit classes instances).owners[cls]? ≠ some (some a) := by
    intro cls h
    rw [owners_storeInit] at h
    cases List.eq_of_mem_replicate (List.mem_of_getElem? h)
  refine ⟨rfl, fun h => (by cases h), fun _ => ⟨rfl, rfl⟩, ?_, fun cls _ _ h => absurd h (hnone cls)⟩
  intro cls c hc ha
  exact absurd ((owners_getElem? hc).trans (congrArg some ha)) (hnone cls)

/-- What is known of the store of a run. -/
structure Healthy (P : Program) (instances : UInt32) (s : Store) : Prop where
  wf : ∀ c ∈ s.tsClasses, c.WF
  limit : ∀ c ∈ s.tsClasses, c.tcLimit = instances.toNat
  shape : ∀ ls ∈ s.tsLifetimes, ls.Shape
  own : OwnLists P s
  settled : Settled (probe s.tsLength) s.owners
  fresh : ∀ c ∈ s.tsClasses, c.tcAutomaton = none → c.tcLimit = c.tcFree

theorem settled_of_run (h : LibRun P classes instances ks s) :
    Settled (probe s.tsLength) s.owners := by
  obtain ⟨log, hlog⟩ : ∃ log, Tabled ⟨s, log⟩ := by
    refine h.invariant (P := fun s => ∃ log, Tabled ⟨s, log⟩) ⟨[], Tabled.init classes instances⟩ ?_
    rintro t u k ⟨log, ht⟩ ⟨evs, hk⟩
    exact ⟨_, ht.call hk⟩
  exact hlog.settled

theorem fresh_preserved : Preserved P (fun c => c.tcAutomaton = none → c.tcLimit = c.tcFree)
    (fun _ => True) (fun _ => True) (fun _ => True) where
  claim := fun _ _ h => by cases h
  update := by
    intro v b ls _ _ hb _
    refine .intro (fun r hr => ⟨fun hnone => ?_, fun _ _ => trivial⟩) fun _ _ => trivial
    rw [(updateFound_spec hr).tcAutomaton, hb] at hnone
    cases hnone
  event := fun _ _ => trivial
  abort := fun _ _ => trivial

theorem healthy_of_run (h : LibRun P classes instances ks s) : Healthy P instances s :=
  ⟨wf_of_run h, limit_of_run h, shape_of_run h, ownLists_of_run h, settled_of_run h,
    fresh_preserved.run (guardedRun_of_run h) fun _ => List.length_replicate⟩

theorem Healthy.unique (h : Healthy P instances s) (hx : s.owners[x]? = some (some a))
    (hcls : s.owners[cls]? = some (some a)) : x = cls :=
  h.settled.owned_unique hx hcls

theorem class_of_owner (h : s.owners[cls]? = some (some a)) :
    ∃ c, s.tsClasses[cls]? = some c ∧ c.tcAutomaton = some a := by
  rw [Store.owners, List.getElem?_map] at h
  exact Option.map_eq_some_iff.mp h

/-! ## One call -/

/-- The failures that a call reports for the class of `a` are those of the watch, and it reports
none for a class that nobody owns. -/
structure ReportsAs (L : Listener α ω) (R : Reading α ω) (P : Program) (a : Ptr) (s' : Store) (w : Watch α) (k : Call) (evs : List Event) :
    Prop where
  own : ∀ cls : Nat, s'.owners[cls]? = some (some a) →
    R.reports cls (failuresOf cls evs) ((L.watch (P.automaton a) a cls).step w k).2
  free : ∀ cls : Nat, s'.owners[cls]? = some none → failuresOf cls evs = []

/-- The state of the watch does not depend on the class. -/
theorem Listener.Hears.watch_state (hL : L.Hears R P a) (w : Watch α) (k : Call) (cls x : Nat) :
    ((L.watch (P.automaton a) a cls).step w k).1 = ((L.watch (P.automaton a) a x).step w k).1 := by
  cases k with
  | sunrise l => rfl
  | updateState b symbol pattern =>
    simp only [Listener.watch]
    split
    · simp only [hL.same cls x]
    · rfl
  | sunset l junk =>
    simp only [Listener.watch]
    split
    · simp only [hL.same cls x]
    · rfl

theorem Tracks.sunrise {w : Watch α} (hL : L.Hears R P a) (h : Tracks R P a s w) (hok : sunrise l s = .ok (s', evs)) :
    Tracks R P a s' ((L.watch (P.automaton a) a cls).step w (.sunrise l)).1 ∧
      ReportsAs L R P a s' w (.sunrise l) evs := by
  obtain ⟨hclasses, hlists⟩ := sunrise_classes hok
  have howners : s'.owners = s.owners := by rw [Store.owners, hclasses, Store.owners]
  have hquiet : ∀ x, failuresOf x evs = [] := by
    intro x
    rw [Runtime.sunrise] at hok
    split at hok
    · split at hok <;> (cases hok; rfl)
    · cases hok
  have hknows := step_knows (P := P) (k := .sunrise l) ⟨evs, hok⟩ (P.automaton a).taLifetime
  have hbegun : (if sameLifetime (P.automaton a).taLifetime l then true else w.begun) =
      (s'.findLifetime (P.automaton a).taLifetime).isSome := by
    rw [Bool.eq_iff_iff, hknows, ← h.begun]
    by_cases hl : sameLifetime (P.automaton a).taLifetime l = true
    · simp [hl]
    · simp [hl]
  have hstep : ((L.watch (P.automaton a) a cls).step w (.sunrise l)).1 =
      { w with begun := (s'.findLifetime (P.automaton a).taLifetime).isSome } := by
    rw [← hbegun]
    simp only [Listener.watch]
    split <;> rfl
  refine ⟨?_, fun x _ => (hquiet x).symm ▸ hL.nothing x, fun x _ => hquiet x⟩
  rw [hstep]
  refine ⟨rfl, ?_, ?_, ?_, ?_⟩
  · intro hdue
    obtain ⟨hb, hstate⟩ := h.due hdue
    exact ⟨hknows.mpr (.inl (h.begun ▸ hb)), hstate⟩
  · rw [howners]
    exact h.unclaimed
  · rw [hclasses]
    exact h.holds
  · intro x li ls hx hli hls
    rw [howners] at hx
    obtain heq | heq := hlists
    · rw [Store.findLifetime, heq] at hli
      rw [heq] at hls
      exact h.enrolled x li ls hx hli hls
    · rw [Store.findLifetime, heq, List.findIdx?_append] at hli
      rw [heq] at hls
      cases hfind : s.findLifetime (P.automaton a).taLifetime with
      | some i =>
        rw [show s.tsLifetimes.findIdx? (sameStaticLifetime (P.automaton a).taLifetime) = some i
          from hfind, Option.some_or] at hli
        obtain rfl := Option.some.inj hli
        obtain ⟨slot, hslot⟩ := slot_of_find hfind
        rw [List.getElem?_append_left (List.getElem?_eq_some_iff.mp hslot).1] at hls
        exact h.enrolled x i ls hx hfind hls
      | none =>
        -- the slot is the new one
        have hdue : w.due = false := by
          cases hd : w.due with
          | false => rfl
          | true =>
            have hb := (h.due hd).1
            rw [h.begun, hfind] at hb
            cases hb
        rw [show s.tsLifetimes.findIdx? (sameStaticLifetime (P.automaton a).taLifetime) = none
          from hfind, Option.none_or, List.findIdx?_singleton] at hli
        obtain rfl : ls = LifetimeState.fresh l := by
          split at hli
          · obtain rfl := Option.some.inj hli
            simpa using hls.symm
          · cases hli
        rw [hdue]
        exact not_mentions_fresh l x

/-- An event that is ignored. -/
theorem failuresOf_ignored (x cls symbol : Nat) (pattern : Key) :
    failuresOf x [.ignored cls symbol pattern] = [] := rfl

theorem updateClassState_unknown {symbol : Nat} (hc : s.tsClasses[cls]? = some c)
    (ha : c.tcAutomaton = some a) (hnone : s.findLifetime (P.automaton a).taLifetime = none)
    (hok : updateClassState P cls symbol key s = .ok (s', evs)) :
    s' = s ∧ evs = [.ignored cls symbol key] := by
  rw [updateClassState, hc] at hok
  simp only [ha, hnone] at hok
  cases hok
  exact ⟨rfl, rfl⟩

/-- Finding the class of an automaton leaves the watches of all where they are. -/
theorem Tracks.classGet {b : Ptr} {w : Watch α} (hL : L.Hears R P a) (h : Tracks R P a s w) (hs : Healthy P instances s)
    (hget : classGet s b = some (s', x)) : Tracks R P a s' w := by
  obtain ⟨c, hc, hfree, heq⟩ := classGet_claims hget
  obtain ⟨hown, hothers, hlists⟩ := classGet_frame hget
  have hx' : s'.tsClasses[x]? = some { c with tcAutomaton := some b } := by
    rw [heq]
    exact List.getElem?_set_self (List.getElem?_eq_some_iff.mp hc).1
  have hbefore : ∀ cls : Nat, s.owners[cls]? = some (some a) → s'.owners[cls]? = some (some a) :=
    fun cls hcls => classGet_owners hget hcls
  -- a class that `a` has now it had before, or it has just been given its first
  have hafter : ∀ cls : Nat, s'.owners[cls]? = some (some a) →
      s.owners[cls]? = some (some a) ∨ (cls = x ∧ c.tcAutomaton = none) := by
    intro cls hcls
    by_cases hx : cls = x
    · subst hx
      rw [hown] at hcls
      obtain rfl : b = a := Option.some.inj (Option.some.inj hcls)
      obtain hnone | hsome := hfree
      · exact .inr ⟨rfl, hnone⟩
      · exact .inl (by rw [owners_getElem? hc, hsome])
    · obtain ⟨c', hc', ha'⟩ := class_of_owner hcls
      rw [hothers cls hx] at hc'
      exact .inl (by rw [owners_getElem? hc', ha'])
  have hfirst : s'.owners[x]? = some (some a) → c.tcAutomaton = none →
      w.state = none ∧ w.due = false := by
    intro hxa hnone
    refine h.unclaimed fun y hy => ?_
    have hxy : y = x := (hs.settled.claim (classGetLoop_claim hget)).owned_unique (hbefore y hy) hxa
    rw [hxy, owners_getElem? hc, hnone] at hy
    cases hy
  refine ⟨?_, h.due, fun hnone => h.unclaimed fun cls hcls => hnone cls (hbefore cls hcls), ?_, ?_⟩
  · rw [findLifetime_congr (classGet_bounds hget)]
    exact h.begun
  · intro cls c' hc' ha'
    have hcls := (owners_getElem? hc').trans (congrArg some ha')
    obtain hold | ⟨rfl, hnone⟩ := hafter cls hcls
    · by_cases hx : cls = x
      · subst hx
        obtain rfl := Option.some.inj (hc'.symm.trans hx')
        rw [owners_getElem? hc] at hold
        exact hL.claim c w.state b (h.holds cls c hc (Option.some.inj hold))
      · rw [hothers cls hx] at hc'
        exact h.holds cls c' hc' ha'
    · obtain rfl := Option.some.inj (hc'.symm.trans hx')
      rw [(hfirst hcls hnone).1]
      exact hL.claim c none b ((hL.unused c).mpr (hs.fresh c (List.mem_of_getElem? hc) hnone))
  · intro cls li ls hcls hli hls
    rw [findLifetime_congr (classGet_bounds hget)] at hli
    rw [hlists] at hls
    obtain hold | ⟨rfl, hnone⟩ := hafter cls hcls
    · exact h.enrolled cls li ls hold hli hls
    · -- an unclaimed class is in no list
      rw [(hfirst hcls hnone).2]
      intro hmem
      obtain ⟨y, hy, _⟩ := hs.own ls (List.mem_of_getElem? hls) cls hmem
      rw [owners_getElem? hc, hnone] at hy
      cases hy

theorem Healthy.classGet {b : Ptr} (h : Healthy P instances s) (hget : classGet s b = some (s', x)) :
    Healthy P instances s' := by
  obtain ⟨c, hc, hfree, heq⟩ := classGet_claims hget
  have hmem := List.mem_of_getElem? hc
  have hlen : s'.tsLength = s.tsLength := by
    rw [heq, Store.tsLength, List.length_set, Store.tsLength]
  have hclass : ∀ c' ∈ s'.tsClasses, c' ∈ s.tsClasses ∨ c' = { c with tcAutomaton := some b } := by
    intro c' hc'
    rw [heq] at hc'
    exact List.mem_or_eq_of_mem_set hc'
  refine ⟨?_, ?_, ?_, h.own.classGet hget, ?_, ?_⟩
  · intro c' hc'
    obtain hc' | rfl := hclass c' hc'
    · exact h.wf c' hc'
    · exact ⟨(h.wf c hmem).limit, (h.wf c hmem).bound⟩
  · intro c' hc'
    obtain hc' | rfl := hclass c' hc'
    · exact h.limit c' hc'
    · exact h.limit c hmem
  · rw [heq]
    exact h.shape
  · rw [hlen]
    exact h.settled.claim (classGetLoop_claim hget)
  · intro c' hc' hnone
    obtain hc' | rfl := hclass c' hc'
    · exact h.fresh c' hc' hnone
    · cases hnone

/-- An event for another class. -/
theorem Tracks.other {symbol : Nat} {w : Watch α} (h : Tracks R P a s w)
    (hx : s.owners[x]? ≠ some (some a)) (hok : updateClassState P x symbol key s = .ok (s', evs)) :
    Tracks R P a s' w := by
  have howners := updateClassState_owners hok
  have hpass : ∀ (cls li : Nat), s.owners[cls]? = some (some a) →
      PassesBy cls li s s' [] ([] ++ evs) := by
    intro cls li hcls
    refine updateClassState_passesBy li [] ?_ hok
    rintro rfl
    exact hx hcls
  have hbounds := updateClassState_bounds hok
  refine ⟨?_, h.due, ?_, ?_, ?_⟩
  · rw [findLifetime_congr hbounds]
    exact h.begun
  · rw [howners]
    exact h.unclaimed
  · intro cls c hc ha
    have hcls : s.owners[cls]? = some (some a) := by
      rw [← howners, owners_getElem? hc, ha]
    rw [(hpass cls 0 hcls).classes] at hc
    exact h.holds cls c hc ha
  · intro cls li ls' hcls hli hls'
    rw [howners] at hcls
    rw [findLifetime_congr hbounds] at hli
    obtain ⟨ls, hls⟩ := slot_of_find hli
    obtain ⟨ls₁, hls₁, hspares⟩ := (hpass cls li hcls).slot ls hls
    obtain rfl := Option.some.inj (hls'.symm.trans hls₁)
    exact (h.enrolled cls li ls hcls hli hls).spares hspares

/-- An event for the class of `a`. -/
theorem Tracks.own {symbol : Nat} {w : Watch α} (h : Tracks R P a s w) (hs : Healthy P instances s)
    (hsize : R.room instances.toNat) (hL : L.Hears R P a) (hx : s.owners[x]? = some (some a))
    (hfits : R.fits symbol key)
    (hroom : ∀ c ∈ s.tsClasses[x]?, c.tcLimit = c.tcFree →
      ∀ li ∈ s.findLifetime (P.automaton a).taLifetime, ∀ ls ∈ s.tsLifetimes[li]?,
        none ∈ ls.tlsClasses)
    (hok : updateClassState P x symbol key s = .ok (s', evs)) (hbears : ∀ ev ∈ evs, R.bears x ev) :
    Tracks R P a s' ((L.watch (P.automaton a) a x).step w (.updateState a symbol key)).1 ∧
      R.reports x (failuresOf x evs)
        ((L.watch (P.automaton a) a x).step w (.updateState a symbol key)).2 := by
  obtain ⟨c, hc, ha⟩ := class_of_owner hx
  have hmem := List.mem_of_getElem? hc
  cases hli : s.findLifetime (P.automaton a).taLifetime with
  | none =>
    obtain ⟨rfl, rfl⟩ := updateClassState_unknown hc ha hli hok
    have hbegun : w.begun = false := by
      rw [h.begun, hli]
      rfl
    have hstep : (L.watch (P.automaton a) a x).step w (.updateState a symbol key) = (w, []) := by
      simp [Listener.watch, hbegun]
    rw [hstep]
    exact ⟨h, hL.nothing x⟩
  | some li =>
    have hbegun : w.begun = true := by
      rw [h.begun, hli]
      rfl
    obtain ⟨ls, hls⟩ := slot_of_find hli
    have hattends : Attends R P a x li s c w.state :=
      ⟨hc, ha, hs.wf c hmem, (hs.limit c hmem).symm ▸ hsize, hli, h.holds x c hc ha⟩
    obtain ⟨c', ls', hafter, hls', hreg, hfail⟩ := hattends.heard hL hls (.inl hfits) hok hbears
    have howners := updateClassState_owners hok
    have hstep : (L.watch (P.automaton a) a x).step w (.updateState a symbol key) =
        ({ w with
          state := (L.hear x symbol key (w.state.getD L.start)).1
          due := w.due || w.state.isNone },
        (L.hear x symbol key (w.state.getD L.start)).2) := by
      simp only [Listener.watch, hbegun, and_self, if_true]
    rw [hstep]
    refine ⟨⟨?_, ?_, ?_, ?_, ?_⟩, hfail⟩
    · rw [hafter.found]
      exact hbegun
    · exact fun _ => ⟨hbegun, hL.stays x symbol key _ hfits⟩
    · intro hnone
      refine absurd ?_ (hnone x)
      rw [howners]
      exact hx
    · intro cls c₁ hc₁ ha₁
      have hcls : s.owners[cls]? = some (some a) := by
        rw [← howners, owners_getElem? hc₁, ha₁]
      obtain rfl := hs.unique hcls hx
      obtain rfl := Option.some.inj (hc₁.symm.trans hafter.mem)
      exact hafter.holds
    · intro cls i ls₁ hcls hi hls₁
      rw [howners] at hcls
      obtain rfl := hs.unique hcls hx
      obtain rfl := Option.some.inj (hi.symm.trans hafter.found)
      obtain rfl := Option.some.inj (hls₁.symm.trans hls')
      have hbefore := h.enrolled cls i ls hcls hli hls
      cases hstate : w.state with
      | some q =>
        rw [hstate, Option.isSome_some, if_pos rfl] at hreg
        rw [Option.isNone_some, Bool.or_false, hreg]
        exact hbefore
      | none =>
        have hdue : w.due = false := by
          cases hd : w.due with
          | false => rfl
          | true =>
            have hsome := (h.due hd).2
            rw [hstate] at hsome
            cases hsome
        rw [hdue] at hbefore
        have hempty : c.tcLimit = c.tcFree := by
          have hholds := h.holds cls c hc ha
          rw [hstate] at hholds
          exact (hL.unused c).mp hholds
        rw [hstate] at hreg
        rw [hdue]
        exact Enrolled.register hbefore (hroom c hc hempty i hli ls hls) (by simpa using hreg)

/-- A sunset, as the class of `a` sees it. -/
theorem Tracks.sunset {junk : Key} {w : Watch α} (h : Tracks R P a s w) (hs : Healthy P instances s)
    (hsize : R.room instances.toNat) (hL : L.Hears R P a) (hok : sunset P l junk s = .ok (s', evs))
    (hbears : ∀ x : Nat, s'.owners[x]? = some (some a) → ∀ ev ∈ evs, R.bears x ev) :
    Tracks R P a s' ((L.watch (P.automaton a) a cls).step w (.sunset l junk)).1 ∧
      ReportsAs L R P a s' w (.sunset l junk) evs := by
  obtain ⟨li, slot, hli, hslot, hframe⟩ := sunset_frame hs.own hok
  have howners := hframe.owners
  have hfind := findLifetime_congr hframe.bounds (P.automaton a).taLifetime
  -- the classes that the sunset does not list
  have hpass : ∀ x : Nat, ¬ slot.Mentions x → s'.tsClasses[x]? = s.tsClasses[x]? ∧
      failuresOf x evs = [] ∧ ∀ ls', s'.tsLifetimes[li]? = some ls' → ¬ ls'.Mentions x :=
    fun x hx => sunset_passesBy hok hli hslot hs.shape hx
  have hfree : ∀ x : Nat, s'.owners[x]? = some none → failuresOf x evs = [] := by
    intro x hx
    refine (hpass x fun hmem => ?_).2.1
    obtain ⟨b, hb, _⟩ := hs.own slot (List.mem_of_getElem? hslot) x hmem
    rw [← howners, hx] at hb
    cases hb
  by_cases hl : sameLifetime (P.automaton a).taLifetime l = true
  · have hli' : s.findLifetime (P.automaton a).taLifetime = some li := by
      rw [findLifetime_same hl, hli]
    cases hdue : w.due with
    | false =>
      have hstep : ∀ x, (L.watch (P.automaton a) a x).step w (.sunset l junk) = (w, []) := by
        intro x
        simp [Listener.watch, hdue]
      have hnot : ∀ x : Nat, s.owners[x]? = some (some a) → ¬ slot.Mentions x := by
        intro x hx
        have hbefore := h.enrolled x li slot hx hli' hslot
        rw [hdue] at hbefore
        exact hbefore
      refine ⟨?_, ?_, hfree⟩
      · rw [hstep]
        refine ⟨by rw [hfind]; exact h.begun, h.due, by rw [howners]; exact h.unclaimed, ?_, ?_⟩
        · intro x c hc ha
          have hx : s.owners[x]? = some (some a) := by
            rw [← howners, owners_getElem? hc, ha]
          rw [(hpass x (hnot x hx)).1] at hc
          exact h.holds x c hc ha
        · intro x i ls hx hi hls
          rw [howners] at hx
          rw [hfind, hli'] at hi
          obtain rfl := Option.some.inj hi
          rw [hdue]
          exact (hpass x (hnot x hx)).2.2 ls hls
      · intro x hx
        rw [howners] at hx
        rw [hstep, (hpass x (hnot x hx)).2.1]
        exact hL.nothing x
    | true =>
      obtain ⟨hbegun, hsome⟩ := h.due hdue
      obtain ⟨q, hq⟩ := Option.isSome_iff_exists.mp hsome
      have hstep : ∀ x, (L.watch (P.automaton a) a x).step w (.sunset l junk) =
          ({ w with
            state := (L.hear x (P.automaton a).taCleanupSymbol (emptyKey junk) q).1
            due := false },
          (L.hear x (P.automaton a).taCleanupSymbol (emptyKey junk) q).2) := by
        intro x
        simp only [Listener.watch, hl, hdue, hq, and_self, if_true, Option.getD_some]
      have hcalled : ∀ x : Nat, s.owners[x]? = some (some a) →
          (∃ c', Attends R P a x li s' c'
            (L.hear x (P.automaton a).taCleanupSymbol (emptyKey junk) q).1) ∧
          R.reports x (failuresOf x evs)
            (L.hear x (P.automaton a).taCleanupSymbol (emptyKey junk) q).2 ∧
          ∀ ls', s'.tsLifetimes[li]? = some ls' → ¬ ls'.Mentions x := by
        intro x hx
        obtain ⟨c, hc, ha⟩ := class_of_owner hx
        have hmem := List.mem_of_getElem? hc
        have hbefore := h.enrolled x li slot hx hli' hslot
        rw [hdue] at hbefore
        have hholds := h.holds x c hc ha
        rw [hq] at hholds
        exact sunset_callsOn hL hok hli hslot hs.shape
          ⟨hc, ha, hs.wf c hmem, (hs.limit c hmem).symm ▸ hsize, hli', hholds⟩ hbefore.1 hbefore.2
          (hbears x (howners ▸ hx))
      refine ⟨?_, ?_, hfree⟩
      · rw [hstep cls]
        refine ⟨by rw [hfind]; exact h.begun, fun hd => (by cases hd), ?_, ?_, ?_⟩
        · intro hnone
          rw [howners] at hnone
          have := (h.unclaimed hnone).2
          rw [hdue] at this
          cases this
        · intro x c hc ha
          have hx : s.owners[x]? = some (some a) := by
            rw [← howners, owners_getElem? hc, ha]
          obtain ⟨⟨c', hafter⟩, _⟩ := hcalled x hx
          obtain rfl := Option.some.inj (hc.symm.trans hafter.mem)
          have hstate := hL.watch_state w (.sunset l junk) cls x
          rw [hstep cls, hstep x] at hstate
          rw [Watch.mk.inj hstate |>.2.1]
          exact hafter.holds
        · intro x i ls hx hi hls
          rw [howners] at hx
          rw [hfind, hli'] at hi
          obtain rfl := Option.some.inj hi
          exact (hcalled x hx).2.2 ls hls
      · intro x hx
        rw [howners] at hx
        rw [hstep]
        exact (hcalled x hx).2.1
  · -- a sunset of another lifetime
    have hstep : ∀ x, (L.watch (P.automaton a) a x).step w (.sunset l junk) = (w, []) := by
      intro x
      simp [Listener.watch, hl]
    have hother : sameStaticLifetime (P.automaton a).taLifetime slot = false := by
      rw [Bool.eq_false_iff]
      exact fun hsame => hl (sameLifetime_of_slot hsame (sameStaticLifetime_of_find hli hslot))
    have hclass : ∀ x : Nat, s.owners[x]? = some (some a) →
        s'.tsClasses[x]? = s.tsClasses[x]? := by
      intro x hx
      refine hframe.classes x fun b hb => ?_
      rw [hx] at hb
      obtain rfl := Option.some.inj (Option.some.inj hb)
      exact hother
    refine ⟨?_, ?_, hfree⟩
    · rw [hstep]
      refine ⟨by rw [hfind]; exact h.begun, h.due, by rw [howners]; exact h.unclaimed, ?_, ?_⟩
      · intro x c hc ha
        have hx : s.owners[x]? = some (some a) := by
          rw [← howners, owners_getElem? hc, ha]
        rw [hclass x hx] at hc
        exact h.holds x c hc ha
      · intro x i ls hx hi hls
        rw [howners] at hx
        rw [hfind] at hi
        have hne : i ≠ li := by
          rintro rfl
          have hsame := sameStaticLifetime_of_find hi hslot
          rw [hother] at hsame
          cases hsame
        rw [hframe.lifetimes i hne] at hls
        exact h.enrolled x i ls hx hi hls
    · intro x hx
      rw [howners] at hx
      have hnot : ¬ slot.Mentions x := by
        intro hmem
        obtain ⟨b, hb, hsame⟩ := hs.own slot (List.mem_of_getElem? hslot) x hmem
        rw [hx] at hb
        obtain rfl := Option.some.inj (Option.some.inj hb)
        rw [hother] at hsame
        cases hsame
      rw [hstep, (hpass x hnot).2.1]
      exact hL.nothing x

/-- One call. -/
theorem Tracks.step {w : Watch α} (cls : Nat) (h : Tracks R P a s w) (hs : Healthy P instances s)
    (hsize : R.room instances.toNat) (hL : L.Hears R P a) (hstep : Heeds R P a s k s' evs) :
    Tracks R P a s' ((L.watch (P.automaton a) a cls).step w k).1 ∧ ReportsAs L R P a s' w k evs := by
  obtain ⟨hok, hordinary, hroom, hbears⟩ := hstep
  cases k with
  | sunrise l => exact h.sunrise hL hok
  | sunset l junk => exact h.sunset hs hsize hL hok hbears
  | updateState b symbol pattern =>
    rw [call, updateState] at hok
    split at hok
    · cases hok
    · next s₁ x hget =>
      have h₁ := h.classGet hL hs hget
      have hs₁ := hs.classGet hget
      have hown := (classGet_frame hget).1
      have howners := updateClassState_owners hok
      have habout : ∀ y : Nat, y ≠ x → failuresOf y evs = [] := by
        intro y hy
        have hquiet := (updateClassState_passesBy 0 [] (Ne.symm hy) hok).quiet
        rwa [List.nil_append, failuresOf_nil] at hquiet
      have hfree : ∀ y : Nat, s'.owners[y]? = some none → failuresOf y evs = [] := by
        intro y hy
        refine habout y ?_
        rintro rfl
        rw [howners, hown] at hy
        cases hy
      by_cases hba : b = a
      · subst hba
        have hroom₁ : ∀ c ∈ s₁.tsClasses[x]?, c.tcLimit = c.tcFree →
            ∀ li ∈ s₁.findLifetime (P.automaton b).taLifetime, ∀ ls ∈ s₁.tsLifetimes[li]?,
              none ∈ ls.tlsClasses := by
          intro c hc hempty li hli ls hls
          rw [findLifetime_congr (classGet_bounds hget)] at hli
          rw [(classGet_frame hget).2.2] at hls
          exact hroom rfl (s₁, x) hget c hc hempty li hli ls hls
        obtain ⟨hafter, hfail⟩ := h₁.own hs₁ hsize hL hown (hordinary rfl) hroom₁ hok
          (hbears x (howners ▸ hown))
        rw [hL.watch_state w _ cls x]
        refine ⟨hafter, ?_, hfree⟩
        intro y hy
        rw [howners] at hy
        obtain rfl := hs₁.unique hy hown
        exact hfail
      · have hx : s₁.owners[x]? ≠ some (some a) := by
          rw [hown]
          exact fun heq => hba (Option.some.inj (Option.some.inj heq))
        have hidle : ∀ y, (L.watch (P.automaton a) a y).step w (.updateState b symbol pattern) =
            (w, []) := by
          intro y
          simp [Listener.watch, hba]
        rw [hidle]
        refine ⟨h₁.other hx hok, ?_, hfree⟩
        intro y hy
        have hne : y ≠ x := by
          rintro rfl
          rw [howners] at hy
          exact hx hy
        rw [hidle, habout y hne]
        exact hL.nothing y

/-! ## Runs -/

/-- Before its automaton has a class, the watch has nothing to report. -/
theorem Tracks.silent {w : Watch α} (h : Tracks R P a s w)
    (hnone : ∀ cls : Nat, s.owners[cls]? ≠ some (some a)) (hk : ∀ symbol pattern,
      k ≠ .updateState a symbol pattern) : ((L.watch (P.automaton a) a cls).step w k).2 = [] := by
  have hdue := (h.unclaimed hnone).2
  cases k with
  | sunrise l => rfl
  | updateState b symbol pattern =>
    have hba : b ≠ a := by
      rintro rfl
      exact hk symbol pattern rfl
    simp [Listener.watch, hba]
  | sunset l junk => simp [Listener.watch, hdue]

theorem call_owners {i : Nat} {b : Ptr} (hok : call P s k = .ok (s', evs))
    (hb : s.owners[i]? = some (some b)) : s'.owners[i]? = some (some b) := by
  cases k with
  | sunrise l =>
    rw [Store.owners, (sunrise_classes hok).1]
    exact hb
  | updateState a symbol pattern =>
    rw [call, updateState] at hok
    split at hok
    · cases hok
    · next s₁ x hget =>
      rw [updateClassState_owners hok]
      exact classGet_owners hget hb
  | sunset l junk =>
    rw [sunset_owners hok]
    exact hb

theorem call_owns {symbol : Nat} (hok : call P s (.updateState a symbol key) = .ok (s', evs)) :
    ∃ x : Nat, s'.owners[x]? = some (some a) := by
  rw [call, updateState] at hok
  split at hok
  · cases hok
  · next s₁ x hget =>
    rw [updateClassState_owners hok]
    exact ⟨x, (classGet_frame hget).1⟩

/-- How a run and the watch on class `cls` are related. -/
structure Explained (R : Reading α ω) (P : Program) (a : Ptr) (cls : Nat) (s : Store) (w : Watch α)
    (evs : List Event) (fails : List ω) : Prop where
  tracks : Tracks R P a s w
  own : s.owners[cls]? = some (some a) → R.reports cls (failuresOf cls evs) fails
  free : s.owners[cls]? = some none → failuresOf cls evs = []
  silent : (∀ x : Nat, s.owners[x]? ≠ some (some a)) → fails = []

theorem Explained.step {w : Watch α} {fails : List ω} (h : Explained R P a cls s w evs fails)
    (hs : Healthy P instances s) (hs' : Healthy P instances s') (hsize : R.room instances.toNat)
    (hL : L.Hears R P a) (hstep : Heeds R P a s k s' evs') :
    Explained R P a cls s' ((L.watch (P.automaton a) a cls).step w k).1 (evs ++ evs')
      (fails ++ ((L.watch (P.automaton a) a cls).step w k).2) := by
  have hok := hstep.1
  obtain ⟨htracks, hreports⟩ := h.tracks.step cls hs hsize hL hstep
  have hkeep : ∀ {x : Nat} {b : Ptr}, s.owners[x]? = some (some b) → s'.owners[x]? = some (some b) :=
    fun hb => call_owners hok hb
  -- who has the class after the call had it before, or nobody had
  have hbefore : ∀ o : Option Ptr, s'.owners[cls]? = some o →
      s.owners[cls]? = some o ∨ s.owners[cls]? = some none := by
    intro o ho
    have hlen : s'.owners.length = s.owners.length := by
      rw [owners_length, owners_length, length_of_step ⟨_, hok⟩]
    have hlt : cls < s.owners.length := hlen ▸ (List.getElem?_eq_some_iff.mp ho).1
    obtain ⟨o', ho'⟩ : ∃ o', s.owners[cls]? = some o' := ⟨_, List.getElem?_eq_getElem hlt⟩
    cases o' with
    | none => exact .inr ho'
    | some b =>
      have hb := ho'
      rw [← ho, hkeep hb]
      exact .inl hb
  refine ⟨htracks, ?_, ?_, ?_⟩
  · intro ha
    rw [failuresOf_append]
    refine hL.append cls _ _ _ _ ?_ (hreports.own cls ha)
    obtain hold | hnone := hbefore _ ha
    · exact h.own hold
    · rw [h.free hnone, h.silent fun x hx => ?_]
      · exact hL.nothing cls
      · obtain rfl := hs'.unique (hkeep hx) ha
        rw [hnone] at hx
        cases hx
  · intro hnone
    rw [failuresOf_append, hreports.free cls hnone, List.append_nil]
    obtain hold | hold := hbefore _ hnone
    · exact h.free hold
    · exact h.free hold
  · intro hnone
    have hnone' : ∀ x : Nat, s.owners[x]? ≠ some (some a) := fun x hx => hnone x (hkeep hx)
    rw [h.silent hnone', List.nil_append]
    refine h.tracks.silent hnone' ?_
    rintro symbol pattern rfl
    obtain ⟨x, hx⟩ := call_owns hok
    exact hnone x hx

theorem Heeded.explained (hL : L.Hears R P a) (hsize : R.room instances.toNat)
    (h : Heeded R P a classes instances ks s evs) (cls : Nat) :
    Explained R P a cls s ((L.watch (P.automaton a) a cls).run ks).1 evs
      ((L.watch (P.automaton a) a cls).run ks).2 := by
  refine Trace.explained (R := fun _ s w evs fails => Explained R P a cls s w evs fails) h ?_ ?_
  · exact ⟨Tracks.init, fun _ => hL.nothing cls, fun _ => rfl, fun _ => rfl⟩
  · intro is t u' i x os os' ws htrace hexp hstep
    have hrun := Heeded.run htrace
    exact hexp.step (healthy_of_run hrun) (healthy_of_run (.snoc i hrun ⟨_, hstep.call⟩)) hsize hL
      hstep

/-! ## Calls that concern an automaton -/

/-- The call is about the automaton or its lifetime. -/
def Concerns (autom : Automaton) (a : Ptr) : Call → Bool
  | .sunrise l | .sunset l _ => sameLifetime autom.taLifetime l
  | .updateState b _ _ => b = a

/-- Other calls do not move the watch. -/
theorem Listener.watch_filter (L : Listener α ω) (autom : Automaton) (a : Ptr) (cls : Nat)
    (ks : List Call) : ∀ w, (L.watch autom a cls).runFrom w ks =
      (L.watch autom a cls).runFrom w (ks.filter (Concerns autom a)) := by
  induction ks with
  | nil => exact fun _ => rfl
  | cons k ks ih =>
    intro w
    rw [List.filter_cons]
    split
    · simp only [Machine.runFrom, ih]
    · next hk =>
      have hidle : (L.watch autom a cls).step w k = (w, []) := by
        cases k with
        | sunrise l =>
          have hl : ¬ sameLifetime autom.taLifetime l = true := hk
          simp only [Listener.watch, if_neg hl]
        | updateState b symbol pattern =>
          have hba : b ≠ a := by simpa [Concerns] using hk
          simp only [Listener.watch, hba, false_and, if_false]
        | sunset l junk =>
          have hl : ¬ sameLifetime autom.taLifetime l = true := hk
          simp only [Listener.watch, hl, Bool.false_eq_true, false_and, if_false]
      rw [Machine.runFrom, hidle]
      exact ih w

end Tesla.Runtime
