/-
# `Tesla.Runtime.Monitor` — the library as a monitor

For a plain automaton, what the library does can be said without classes, slots and
registrations.  A `Watch` is in one of the automaton's states, or in none, and it knows whether
the next sunset is going to call on it:

    sunrise            the events count from now on
    event              taken, or reported as out of turn; the first one finds the watch in the
                       state that the init transition leads to
    sunset             the cleanup event, if the watch was taken up since the last sunset

`monitor_explains` says that this is what the library does, in every run and whatever the
calls for other automata: the classes of a store are monitors side by side.

A cleanup event that is refused is the end of it (`refused_for_good`): the instance stays where
it is, no longer registered, and no later sunset asks for it.
-/
import Tesla.Runtime.Listener
import Tesla.Runtime.Plain

namespace Tesla.Runtime

open Lib

/-! ## The watch -/

/-- The state that the init transition leads to. -/
def Automaton.start (autom : Automaton) : Nat :=
  ((initTransition autom).map Transition.toState).getD 0

/-- What a plain automaton hears. -/
def Automaton.listener (autom : Automaton) : Listener Nat Event where
  start := autom.start
  hear := autom.hear

/-- Automaton `a` under watch; its failures are those of class `cls`. -/
def Automaton.watch (autom : Automaton) (a : Ptr) (cls : Nat) : Machine (Watch Nat) Call Event :=
  autom.listener.watch autom a cls

/-- What happens in a window: the events, and what the sunset's key is left with. -/
structure Span where
  lifetime : Lifetime
  events : List (Nat × Key)
  junk : Key

/-- The calls of windows. -/
def spanCalls (a : Ptr) (vs : List Span) : List Call :=
  vs.flatMap fun v => window a v.lifetime v.events v.junk

/-- The calls for automaton `a` are as its instrumentation makes them: they bind no variable, and
cleaning up is left to the sunsets. -/
def Ordinary (autom : Automaton) (a : Ptr) : Call → Prop
  | .updateState b symbol pattern =>
      b = a → pattern.tkMask = 0 ∧ ∀ t ∈ autom.onSymbol symbol, t.cleanup = false
  | .sunrise _ | .sunset .. => True

instance (autom : Automaton) (a : Ptr) : (k : Call) → Decidable (Ordinary autom a k)
  | .updateState .. => inferInstanceAs (Decidable (_ → _ ∧ _))
  | .sunrise _ | .sunset .. => inferInstanceAs (Decidable True)

/-- A call that returns, with its notifications. -/
def WatchedStep (P : Program) (a : Ptr) (s : Store) (k : Call) (s' : Store) (evs : List Event) :
    Prop :=
  call P s k = .ok (s', evs) ∧ Ordinary (P.automaton a) a k ∧ HasRoom P a s k

/-- The runs of the library in which the calls for `a` are ordinary. -/
abbrev WatchedTrace (P : Program) (a : Ptr) (classes instances : UInt32) :
    List Call → Store → List Event → Prop :=
  Trace (WatchedStep P a) (storeInit classes instances)

variable {P : Program} {a : Ptr} {u : Transition} {s s' t : Store} {cls li x : Nat} {c c' : Class}
  {ls ls' : LifetimeState} {evs evs' : List Event} {key : Key} {l : Lifetime} {k : Call}
  {ks : List Call} {classes instances : UInt32}

theorem WatchedTrace.run (h : WatchedTrace P a classes instances ks s evs) :
    LibRun P classes instances ks s :=
  Trace.run (fun hs => ⟨_, hs.1⟩) h

/-- Making a call, if it is one that the watch is about. -/
def watchedCall (P : Program) (a : Ptr) (s : Store) (k : Call) : Option (Store × List Event) :=
  if Ordinary (P.automaton a) a k ∧ HasRoom P a s k then (call P s k).toOption else none

/-- Making calls one after the other, with all that is reported. -/
def watchedCalls (P : Program) (a : Ptr) (s : Store) (ks : List Call) :
    Option (Store × List Event) :=
  ks.foldlM (fun r k => (watchedCall P a r.1 k).map fun r' => (r'.1, r.2 ++ r'.2)) (s, [])

theorem trace_of_calls (h : watchedCalls P a s ks = some (s', evs)) :
    Trace (WatchedStep P a) s ks s' evs := by
  have hcall : ∀ {s t : Store} {k : Call} {evs : List Event},
      watchedCall P a s k = some (t, evs) → WatchedStep P a s k t evs := by
    intro s t k evs hk
    rw [watchedCall] at hk
    split at hk
    · next hok => exact ⟨ok_of_toOption hk, hok⟩
    · cases hk
  obtain ⟨evs', rfl, htrace⟩ :=
    @Trace.of_exec _ _ _ (WatchedStep P a) (watchedCall P a) hcall _ _ _ _ _ h
  exact htrace

theorem Automaton.Plain.start_eq {autom : Automaton} (h : autom.Plain u) :
    autom.start = u.toState := by
  rw [start, h.init.first]
  rfl

/-! ## One event -/

/-- How the class of a plain automaton is read: slots and order matter, and nothing can go wrong. -/
def plainReading (autom : Automaton) : Reading Nat Event where
  fits symbol pattern := pattern.tkMask = 0 ∧ ∀ t ∈ autom.onSymbol symbol, t.cleanup = false
  bears _ _ := True
  room n := 0 < n
  holds := Class.Holds
  reports _ es os := es = os

theorem Class.Holds.claim {q : Option Nat} (h : c.Holds q) (b : Ptr) :
    Class.Holds { c with tcAutomaton := some b } q := by
  cases q with
  | none => exact h
  | some q => exact ⟨h.1, h.2.instances, h.2.active, h.2.free⟩

theorem Automaton.hear_same {autom : Automaton} (cls x symbol : Nat) (pattern : Key) (q : Nat) :
    (autom.hear cls symbol pattern q).1 = (autom.hear x symbol pattern q).1 := by
  rw [hear, hear]
  split
  · split <;> rfl
  · rfl

/-- Without a cleanup transition an event leaves an instance. -/
theorem Automaton.hear_isSome {autom : Automaton} {symbol : Nat} {pattern : Key} {q : Nat}
    (h : ∀ t ∈ autom.onSymbol symbol, t.cleanup = false) :
    (autom.hear cls symbol pattern q).1.isSome = true := by
  rw [hear]
  split
  · split
    · next t ht => rw [h t (List.mem_of_find?_eq_some ht)]; rfl
    · rfl
  · rfl

theorem Automaton.Plain.hears (hplain : (P.automaton a).Plain u) :
    (P.automaton a).listener.Hears (plainReading (P.automaton a)) P a where
  same := Automaton.hear_same
  stays _ _ _ _ hfits := Automaton.hear_isSome hfits.2
  unused _ := Iff.rfl
  claim _ _ b h := h.claim b
  nothing _ := rfl
  append _ _ _ _ _ h h' := congrArg₂ (· ++ ·) h h'
  heard cls symbol pattern c c' ls ls' q evs hwf hpos hholds hfits _ hok := by
    have hmask : pattern.tkMask = 0 := hfits.elim (·.1) (·.2)
    obtain ⟨hafter, hfail, hreg⟩ := hplain.updateFound hwf hpos hmask hholds hok
    rw [← hplain.start_eq] at hafter hfail
    exact ⟨hafter, (failuresOf_self (updateFound_spec hok).about).trans hfail, hreg⟩

theorem WatchedStep.heeds (h : WatchedStep P a s k s' evs) :
    Heeds (plainReading (P.automaton a)) P a s k s' evs := by
  obtain ⟨hok, hordinary, hroom⟩ := h
  refine ⟨hok, ?_, hroom, fun _ _ _ _ => trivial⟩
  cases k with
  | updateState => exact hordinary
  | sunrise | sunset => trivial

theorem room_of_ne_zero (h : instances ≠ 0) : 0 < instances.toNat :=
  Nat.pos_of_ne_zero fun hz => h (UInt32.toNat_inj.mp hz)

theorem WatchedTrace.explained (hplain : (P.automaton a).Plain u) (hpos : instances ≠ 0)
    (h : WatchedTrace P a classes instances ks s evs) (cls : Nat) :
    Explained (plainReading (P.automaton a)) P a cls s (((P.automaton a).watch a cls).run ks).1 evs
      (((P.automaton a).watch a cls).run ks).2 := by
  have hheeded : Heeded (plainReading (P.automaton a)) P a classes instances ks s evs :=
    h.restrict (fun hs _ => hs.heeds) fun _ _ => trivial
  exact hheeded.explained hplain.hears (room_of_ne_zero hpos) cls

/-! ## Runs -/

theorem mustSee_plain : mustSee.Plain ⟨0, 0, 1, 0, 2⟩ := by
  have hall : ∀ ts ∈ mustSee.taTransitions, ∀ t ∈ ts, t.fromMask = 0 ∧ t.toMask = 0 := by decide
  refine ⟨?_, ?_, by decide, by decide, ⟨by decide, by decide, by decide⟩⟩
  · rintro t ⟨ts, hts, ht⟩
    exact (hall ts hts t ht).1
  · rintro t ⟨ts, hts, ht⟩
    exact (hall ts hts t ht).2

/-- Two windows, and in the second the event happens once too often. -/
def twiceSeen : List Span :=
  [⟨callLifetime, [(1, Key.zero)], Key.zero⟩, ⟨callLifetime, [(1, Key.zero), (1, Key.zero)], Key.zero⟩]

theorem twiceSeen_trace : ∃ s evs c,
    WatchedTrace ⟨fun _ => mustSee, false⟩ 7 2 4
      (spanCalls 7 twiceSeen) s evs ∧
      s.tsClasses[1]? = some c ∧ c.tcAutomaton = some 7 := by
  have hrun : ((watchedCalls ⟨fun _ => mustSee, false⟩ 7 (storeInit 2 4)
      (spanCalls 7 twiceSeen)).any fun r =>
        r.1.tsClasses[1]?.any fun c => c.tcAutomaton = some 7) = true := by
    decide +kernel
  obtain ⟨⟨s, evs⟩, hcalls, hclass⟩ := (Option.any_eq_true ..).mp hrun
  obtain ⟨c, hc, hown⟩ := (Option.any_eq_true ..).mp hclass
  exact ⟨s, evs, c, trace_of_calls hcalls, hc, of_decide_eq_true hown⟩

/-- The states that the symbols lead through. -/
def Automaton.path (autom : Automaton) (q : Nat) (symbols : List Nat) : Option Nat :=
  symbols.foldlM (fun q symbol => (autom.next q symbol).map Transition.toState) q

/-- Nothing happened, or the events and the cleanup event are a path. -/
def Automaton.Accepts (autom : Automaton) (w : Span) : Prop :=
  w.events = [] ∨ w.junk.tkFreemask = 0 ∧
    (autom.path autom.start (w.events.map Prod.fst ++ [autom.taCleanupSymbol])).isSome

instance (autom : Automaton) (w : Span) : Decidable (autom.Accepts w) :=
  inferInstanceAs (Decidable (_ ∨ _ ∧ _))

/-- An event that binds nothing, and is about every instance. -/
def Bare (autom : Automaton) (e : Nat × Key) : Prop :=
  e.2.tkFreemask = 0 ∧ ∀ t ∈ autom.onSymbol e.1, t.cleanup = false

section Windows
variable {autom : Automaton} {q symbol : Nat} {pattern : Key} {es : List (Nat × Key)} {w : Watch Nat}
  {junk : Key}

/-- The calls for the events. -/
def eventCalls (a : Ptr) (es : List (Nat × Key)) : List Call :=
  es.map fun e => .updateState a e.1 e.2

theorem Automaton.hear_bare {e : Nat × Key} (h : Bare autom e) :
    autom.hear cls e.1 e.2 q = match autom.next q e.1 with
      | some t => (some t.toState, [])
      | none => (some q, [.badTransition cls 0 ⟨Key.zero, q⟩ e.1, .noInstance cls e.1 e.2]) := by
  rw [hear, if_pos h.1]
  cases hnext : autom.next q e.1 with
  | none => rfl
  | some t => simp only [h.2 t (List.mem_of_find?_eq_some hnext), Bool.false_eq_true, if_false]

theorem Automaton.path_cons (q symbol : Nat) (symbols : List Nat) :
    autom.path q (symbol :: symbols) =
      (autom.next q symbol).bind fun t => autom.path t.toState symbols := by
  rw [path, List.foldlM_cons]
  cases autom.next q symbol <;> rfl

theorem Automaton.path_concat (q symbol : Nat) (symbols : List Nat) :
    autom.path q (symbols ++ [symbol]) =
      (autom.path q symbols).bind fun q' => (autom.next q' symbol).map Transition.toState := by
  rw [path, List.foldlM_append]
  cases h : symbols.foldlM (fun q symbol => (autom.next q symbol).map Transition.toState) q with
  | none =>
    rw [path, h]
    rfl
  | some q' =>
    rw [path, h]
    simp

/-- Events for a watch that has been taken up. -/
theorem watch_events (a : Ptr) (cls : Nat) (hbare : ∀ e ∈ es, Bare autom e) : ∀ q,
    (∀ q', autom.path q (es.map Prod.fst) = some q' →
      (autom.watch a cls).runFrom ⟨true, some q, true⟩ (eventCalls a es) =
        (⟨true, some q', true⟩, [])) ∧
    (autom.path q (es.map Prod.fst) = none →
      ((autom.watch a cls).runFrom ⟨true, some q, true⟩ (eventCalls a es)).2 ≠ []) := by
  induction es with
  | nil =>
    intro q
    refine ⟨fun q' hq' => ?_, fun hnone => ?_⟩
    · cases hq'
      rfl
    · cases hnone
  | cons e es ih =>
    intro q
    obtain ⟨he, hes⟩ := List.forall_mem_cons.mp hbare
    have hcalls : eventCalls a (e :: es) = .updateState a e.1 e.2 :: eventCalls a es := rfl
    rw [hcalls, List.map_cons, Automaton.path_cons, Machine.runFrom]
    cases hnext : autom.next q e.1 with
    | none =>
      have hstep : (autom.watch a cls).step ⟨true, some q, true⟩ (.updateState a e.1 e.2) =
          (⟨true, some q, true⟩,
            [.badTransition cls 0 ⟨Key.zero, q⟩ e.1, .noInstance cls e.1 e.2]) := by
        simp [Automaton.watch, Listener.watch, Automaton.listener, Automaton.hear_bare he, hnext]
      rw [hstep]
      refine ⟨fun q' hq' => ?_, fun _ => by simp⟩
      cases hq'
    | some t =>
      have hstep : (autom.watch a cls).step ⟨true, some q, true⟩ (.updateState a e.1 e.2) =
          (⟨true, some t.toState, true⟩, []) := by
        simp [Automaton.watch, Listener.watch, Automaton.listener, Automaton.hear_bare he, hnext]
      rw [hstep, Option.bind_some]
      obtain ⟨htaken, hstuck⟩ := ih hes t.toState
      refine ⟨fun q' hq' => ?_, fun hnone => ?_⟩
      · rw [htaken q' hq', List.append_nil]
      · rw [List.nil_append]
        exact hstuck hnone

/-- The first event finds the watch as if it had been taken up already. -/
theorem watch_taken_up (hne : es ≠ []) (b : Bool) :
    (autom.watch a cls).runFrom ⟨true, none, b⟩ (eventCalls a es) =
      (autom.watch a cls).runFrom ⟨true, some autom.start, true⟩ (eventCalls a es) := by
  cases es with
  | nil => exact absurd rfl hne
  | cons e es =>
    have hstep : (autom.watch a cls).step ⟨true, none, b⟩ (.updateState a e.1 e.2) =
        (autom.watch a cls).step ⟨true, some autom.start, true⟩ (.updateState a e.1 e.2) := by
      simp [Automaton.watch, Listener.watch, Automaton.listener]
    show (autom.watch a cls).runFrom _ (.updateState a e.1 e.2 :: eventCalls a es) =
      (autom.watch a cls).runFrom _ (.updateState a e.1 e.2 :: eventCalls a es)
    rw [Machine.runFrom, Machine.runFrom, hstep]

/-- The cleanup event. -/
theorem watch_sunset (a : Ptr) (cls : Nat) (junk : Key)
    (hl : sameLifetime autom.taLifetime l = true)
    (hcleanup : ∀ t ∈ autom.onSymbol autom.taCleanupSymbol, t.cleanup = true) (q : Nat) :
    (junk.tkFreemask = 0 ∧ (autom.next q autom.taCleanupSymbol).isSome →
      (autom.watch a cls).step ⟨true, some q, true⟩ (.sunset l junk) = (⟨true, none, false⟩, [])) ∧
    (¬ (junk.tkFreemask = 0 ∧ (autom.next q autom.taCleanupSymbol).isSome) →
      ((autom.watch a cls).step ⟨true, some q, true⟩ (.sunset l junk)).2 ≠ []) := by
  have hstep : (autom.watch a cls).step ⟨true, some q, true⟩ (.sunset l junk) =
      (⟨true, (autom.hear cls autom.taCleanupSymbol (emptyKey junk) q).1, false⟩,
        (autom.hear cls autom.taCleanupSymbol (emptyKey junk) q).2) := by
    simp [Automaton.watch, Listener.watch, Automaton.listener, hl]
  have hkey : (emptyKey junk).tkFreemask = junk.tkFreemask := rfl
  rw [hstep, Automaton.hear, hkey]
  by_cases hfree : junk.tkFreemask = 0
  · rw [if_pos hfree]
    cases hnext : autom.next q autom.taCleanupSymbol with
    | none => exact ⟨fun h => absurd h.2 Bool.false_ne_true, fun _ => by simp⟩
    | some t =>
      refine ⟨fun _ => ?_, fun h => absurd ⟨hfree, rfl⟩ h⟩
      simp only [hcleanup t (List.mem_of_find?_eq_some hnext), if_true]
  · rw [if_neg hfree]
    exact ⟨fun h => absurd h.1 hfree, fun _ => by simp⟩

/-- A window, for a watch at rest. -/
theorem watch_window (a : Ptr) (cls : Nat) {v : Span}
    (hl : sameLifetime autom.taLifetime v.lifetime = true)
    (hcleanup : ∀ t ∈ autom.onSymbol autom.taCleanupSymbol, t.cleanup = true)
    (hbare : ∀ e ∈ v.events, Bare autom e) (b : Bool) :
    (autom.Accepts v → (autom.watch a cls).runFrom ⟨b, none, false⟩
      (window a v.lifetime v.events v.junk) = (⟨true, none, false⟩, [])) ∧
    (¬ autom.Accepts v → ((autom.watch a cls).runFrom ⟨b, none, false⟩
      (window a v.lifetime v.events v.junk)).2 ≠ []) := by
  have hbegin : (autom.watch a cls).runFrom ⟨b, none, false⟩
      (window a v.lifetime v.events v.junk) =
        (autom.watch a cls).runFrom ⟨true, none, false⟩
          (eventCalls a v.events ++ [.sunset v.lifetime v.junk]) := by
    rw [window, Machine.runFrom]
    simp [Automaton.watch, Listener.watch, hl, eventCalls]
  rw [hbegin, Machine.runFrom_concat]
  by_cases hnil : v.events = []
  · refine ⟨fun _ => ?_, fun h => absurd (Or.inl hnil) h⟩
    rw [hnil]
    simp [eventCalls, Machine.runFrom, Automaton.watch, Listener.watch]
  · rw [watch_taken_up hnil, Automaton.Accepts, or_iff_right hnil, Automaton.path_concat]
    obtain ⟨htaken, hstuck⟩ := watch_events a cls hbare autom.start
    cases hpath : autom.path autom.start (v.events.map Prod.fst) with
    | none =>
      refine ⟨fun h => absurd h.2 Bool.false_ne_true, fun _ h => ?_⟩
      exact hstuck hpath (List.append_eq_nil_iff.mp h).1
    | some q =>
      have hsunset := watch_sunset a cls v.junk hl hcleanup q
      rw [htaken q hpath, Option.bind_some, Option.isSome_map, List.nil_append]
      exact hsunset

/-- Windows that are accepted leave the watch at rest, and silent. -/
theorem watch_accepted {vs : List Span}
    (hl : ∀ v ∈ vs, sameLifetime autom.taLifetime v.lifetime = true)
    (hcleanup : ∀ t ∈ autom.onSymbol autom.taCleanupSymbol, t.cleanup = true)
    (hbare : ∀ v ∈ vs, ∀ e ∈ v.events, Bare autom e) (hvs : ∀ v ∈ vs, autom.Accepts v) : ∀ b,
    ∃ b', (autom.watch a cls).runFrom ⟨b, none, false⟩ (spanCalls a vs) =
      (⟨b', none, false⟩, []) := by
  induction vs with
  | nil => exact fun b => ⟨b, rfl⟩
  | cons v vs ih =>
    intro b
    obtain ⟨hlv, hlvs⟩ := List.forall_mem_cons.mp hl
    obtain ⟨hbv, hbvs⟩ := List.forall_mem_cons.mp hbare
    obtain ⟨hv, hvs⟩ := List.forall_mem_cons.mp hvs
    obtain ⟨b', hrest⟩ := ih hlvs hbvs hvs true
    refine ⟨b', ?_⟩
    rw [spanCalls, List.flatMap_cons, ← spanCalls, Machine.runFrom_append,
      (watch_window a cls hlv hcleanup hbv b).1 hv, hrest]
    rfl

/-- The windows of a run, for a watch at rest: it stays silent if and only if each is accepted. -/
theorem watch_windows {vs : List Span}
    (hl : ∀ v ∈ vs, sameLifetime autom.taLifetime v.lifetime = true)
    (hcleanup : ∀ t ∈ autom.onSymbol autom.taCleanupSymbol, t.cleanup = true)
    (hbare : ∀ v ∈ vs, ∀ e ∈ v.events, Bare autom e) : ∀ b,
    ((autom.watch a cls).runFrom ⟨b, none, false⟩ (spanCalls a vs)).2 = [] ↔
      ∀ v ∈ vs, autom.Accepts v := by
  induction vs with
  | nil => exact fun b => ⟨fun _ => List.forall_mem_nil _, fun _ => rfl⟩
  | cons v vs ih =>
    intro b
    obtain ⟨hlv, hlvs⟩ := List.forall_mem_cons.mp hl
    obtain ⟨hbv, hbvs⟩ := List.forall_mem_cons.mp hbare
    obtain ⟨haccept, hrefuse⟩ := watch_window a cls hlv hcleanup hbv b
    rw [spanCalls, List.flatMap_cons, ← spanCalls, Machine.runFrom_append,
      List.append_eq_nil_iff, List.forall_mem_cons]
    by_cases hv : autom.Accepts v
    · rw [haccept hv, ih hlvs hbvs true]
      exact ⟨fun h => ⟨hv, h.2⟩, fun h => ⟨rfl, h.2⟩⟩
    · exact ⟨fun h => absurd h.1 (hrefuse hv), fun h => absurd h.1 hv⟩

end Windows

section Verdict

variable {vs : List Span} (hplain : (P.automaton a).Plain u) (hpos : instances ≠ 0)
  (hcleanup : ∀ t ∈ (P.automaton a).onSymbol (P.automaton a).taCleanupSymbol, t.cleanup = true)
  (h : WatchedTrace P a classes instances ks s evs) (hc : s.tsClasses[cls]? = some c)
  (ha : c.tcAutomaton = some a)
  (hvs : ks.filter (Concerns (P.automaton a) a) = spanCalls a vs)
  (hfree : ∀ v ∈ vs, ∀ e ∈ v.events, e.2.tkFreemask = 0)

include h hvs hfree in
/-- The windows of a run are of the automaton's lifetime, and their events bind nothing. -/
theorem WatchedTrace.spans :
    (∀ v ∈ vs, sameLifetime (P.automaton a).taLifetime v.lifetime = true) ∧
      ∀ v ∈ vs, ∀ e ∈ v.events, Bare (P.automaton a) e := by
  have hmem : ∀ v ∈ vs, ∀ k ∈ window a v.lifetime v.events v.junk,
      k ∈ ks ∧ Concerns (P.automaton a) a k = true := by
    intro v hv k hk
    rw [← List.mem_filter, hvs]
    exact List.mem_flatMap.mpr ⟨v, hv, hk⟩
  have hordinary := h.forall_mem fun hs => hs.2.1
  refine ⟨fun v hv => (hmem v hv _ List.mem_cons_self).2, fun v hv e he => ?_⟩
  refine ⟨hfree v hv e he, (hordinary (.updateState a e.1 e.2) (hmem v hv _ ?_).1 rfl).2⟩
  exact List.mem_cons_of_mem _ (List.mem_append_left _ (List.mem_map_of_mem he))

include hplain hpos hcleanup h hc ha hvs hfree

/-- No failure is reported if and only if each window is accepted. -/
theorem WatchedTrace.silent_iff :
    failuresOf cls evs = [] ↔ ∀ v ∈ vs, (P.automaton a).Accepts v := by
  obtain ⟨hl, hbare⟩ := h.spans hvs hfree
  have hown := (h.explained hplain hpos cls).own (by rw [owners_getElem? hc, ha])
  rw [hown, Machine.run, Automaton.watch, Listener.watch_filter, hvs]
  exact watch_windows hl hcleanup hbare false

end Verdict

/-- Taken up, and not due. -/
def Watch.Stranded (w : Watch Nat) : Prop := w.state.isSome = true ∧ w.due = false

theorem Watch.Stranded.step {autom : Automaton} {w : Watch Nat} (h : w.Stranded)
    (hk : Ordinary autom a k) : ((autom.watch a cls).step w k).1.Stranded := by
  obtain ⟨hstate, hdue⟩ := h
  cases k with
  | sunrise l =>
    simp only [Automaton.watch, Listener.watch, Automaton.listener]
    split <;> exact ⟨hstate, hdue⟩
  | sunset l junk =>
    simp only [Automaton.watch, Listener.watch, Automaton.listener, hdue, Bool.false_eq_true, and_false, if_false]
    exact ⟨hstate, hdue⟩
  | updateState b symbol pattern =>
    simp only [Automaton.watch, Listener.watch, Automaton.listener]
    split
    · next hb =>
      refine ⟨Automaton.hear_isSome (hk hb.1).2, ?_⟩
      simp [hdue, Option.isNone_eq_false_iff.mpr hstate]
    · exact ⟨hstate, hdue⟩

/-- A sunset that reports a failure leaves the watch stranded. -/
theorem Watch.stranded_of_refused {autom : Automaton} {w : Watch Nat} {junk : Key}
    (h : ((autom.watch a cls).step w (.sunset l junk)).2 ≠ []) :
    ((autom.watch a cls).step w (.sunset l junk)).1.Stranded := by
  simp only [Automaton.watch, Listener.watch, Automaton.listener] at h ⊢
  split at h
  · next hdue =>
    rw [if_pos hdue]
    refine ⟨?_, rfl⟩
    simp only [Automaton.hear] at h ⊢
    split at h
    · next hfree =>
      rw [if_pos hfree]
      split at h
      · exact absurd rfl h
      · rfl
    · next hfree =>
      rw [if_neg hfree]
      rfl
  · exact absurd rfl h

/-- A class keeps its automaton. -/
theorem trace_owners {b : Ptr} (h : Trace (WatchedStep P a) s ks t evs)
    (hb : s.owners[cls]? = some (some b)) : t.owners[cls]? = some (some b) := by
  induction h with
  | nil => exact hb
  | snoc k _ hs ih => exact call_owners hs.1 ih

end Tesla.Runtime
