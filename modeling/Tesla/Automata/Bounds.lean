/-
# `Tesla.Automata.Bounds` — automata with a beginning and an end

What `NFAParser::Parse` makes of an automaton whose usage has both bounds, for any
expression and any strictness:

    0 ──beginning──▶ 1 ⟶ the expression ⟶ f ──end──▶ n
                     1 ──out-of-scope events──▶ 1, or n for the end

The transitions come in the order of their creation: the beginning, those of the
expression (`ts`), the end, and the out-of-scope copies (`strays`).
-/
import Tesla.Automata.Building
import Tesla.Automata.Steps

namespace Tesla.Automata

open Lib

variable {P : Parser} {fuel s f n start stop : ℕ} {g g' N : Graph} {t c : Transition}
  {ts us noted : List Transition} {L : Label → Prop} {lb le l : Label} {a x y : Letter}
  {b e : Expression} {use : Usage}

/-! ## Out-of-scope transitions -/

/-- The out-of-scope copy of a transition, if there is one. -/
def Transition.stray (start stop : ℕ) (t : Transition) : Option Transition :=
  match t.label with
  | .assertSite .. | .null | .subAutomaton _ => none
  | .fieldAssign _ | .fn _ =>
    some ⟨start, if t.cleanup then stop else start, t.label, t.init, t.cleanup, true⟩

/-- The out-of-scope copies, in order. -/
def strays (start stop : ℕ) (us : List Transition) : List Transition :=
  (Parser.outOfScope [] us).filterMap (Transition.stray start stop)

theorem Transition.stray_label (h : t.stray start stop = some c) :
    c = ⟨start, if t.cleanup then stop else start, t.label, t.init, t.cleanup, true⟩ := by
  rw [stray] at h
  split at h
  · cases h
  · cases h
  · cases h
  · exact (Option.some.inj h).symm
  · exact (Option.some.inj h).symm

theorem Transition.stray_regular (h : t.stray start stop = some c) : c.Regular := by
  rw [stray] at h
  split at h
  · cases h
  · cases h
  · cases h
  · next hl =>
    obtain rfl := Option.some.inj h
    simp only [Regular, hl]
  · next hl =>
    obtain rfl := Option.some.inj h
    simp only [Regular, hl]

theorem Transition.regular_of_inScope (hl : t.label = .null ∨ t.label.isRealisable = true)
    (hscope : t.outOfScope = false) : t.Regular := by
  rw [Regular]
  split
  · trivial
  · trivial
  · trivial
  · exact hscope
  · next hsub =>
    rw [hsub] at hl
    obtain hl | hl := hl
    · cases hl
    · cases hl

theorem addOutOfScope_spec (start stop : ℕ) (g : Graph) :
    (Parser.addOutOfScope start stop g).transitions =
        g.transitions ++ strays start stop g.transitions ∧
      (Parser.addOutOfScope start stop g).flags = g.flags := by
  rw [Parser.addOutOfScope, strays]
  generalize Parser.outOfScope [] g.transitions = us
  induction us generalizing g with
  | nil => exact ⟨(List.append_nil _).symm, rfl⟩
  | cons t us ih =>
    rw [List.foldl_cons, List.filterMap_cons]
    cases hl : t.label with
    | null | assertSite | subAutomaton =>
      simp only [Transition.stray, hl]
      exact ih g
    | fn | fieldAssign =>
      simp only [Transition.stray, hl]
      obtain ⟨htrans, hflags⟩ := ih (g.copy start (if t.cleanup then stop else start) t true)
      refine ⟨?_, ?_⟩
      · rw [htrans]
        simp [Graph.copy, hl]
      · have hnull : t.label ≠ .null := by simp [hl]
        rw [hflags, Graph.copy_flags hnull]

theorem subset_outOfScope (ht : t ∈ noted) : t ∈ Parser.outOfScope noted us := by
  induction us generalizing noted with
  | nil => exact ht
  | cons u us ih =>
    rw [Parser.outOfScope]
    split
    · exact ih ht
    · exact ih (List.mem_append_left _ ht)

/-- There is a copy for every such symbol. -/
theorem exists_outOfScope (noted : List Transition) (ht : t ∈ us) (hstrict : t.label.isStrict = false)
    (hinit : t.init = false) :
    ∃ u ∈ Parser.outOfScope noted us, u.label.letter = t.label.letter := by
  induction us generalizing noted with
  | nil => cases ht
  | cons u us ih =>
    rw [Parser.outOfScope]
    obtain rfl | ht := List.mem_cons.mp ht
    · split
      · next h =>
        rw [hstrict, hinit, Bool.or_false, Bool.or_false, List.any_eq_true] at h
        obtain ⟨u, hu, heq⟩ := h
        exact ⟨u, subset_outOfScope hu, Label.equivalentTo_iff.mp heq⟩
      · exact ⟨t, subset_outOfScope (List.mem_append_right _ List.mem_cons_self), rfl⟩
    · split
      · exact ih _ ht
      · exact ih _ ht

/-! ## Realisable events -/

theorem label_realisable (hl : P.label e = some l) : l.isRealisable = true := by
  cases e with
  | assertionSite | function | fieldAssign =>
    obtain rfl := Option.some.inj hl
    rfl
  | booleanExpr | sequence | nullExpr | subAutomaton => cases hl

/-- The events of a linked automaton are realisable. -/
theorem labels_realisable {xorOnly : Bool} {d : AutomatonDescription} {descriptions : AutomataMap}
    {e : Expression} (hl : l ∈ (NFA.linker xorOnly d descriptions).labels fuel e) :
    l.isRealisable = true := by
  induction fuel generalizing e with
  | zero => cases hl
  | succ fuel ih =>
    cases e with
    | nullExpr => cases hl
    | assertionSite | function | fieldAssign =>
      obtain rfl := List.mem_singleton.mp hl
      rfl
    | booleanExpr operation lhs rhs =>
      obtain hl | hl := List.mem_append.mp hl
      · exact ih hl
      · exact ih hl
    | sequence es minReps maxReps =>
      obtain ⟨e, _, hl⟩ := List.mem_flatMap.mp hl
      exact ih hl
    | subAutomaton id =>
      cases ha : descriptions id with
      | none =>
        simp [Parser.labels, NFA.linker, ha] at hl
      | some a =>
        simp only [Parser.labels, NFA.linker, Option.bind_some, ha] at hl
        exact ih hl

/-! ## The shape -/

/-- The beginning, the expression and the end. -/
def inner (lb le : Label) (f n : ℕ) (ts : List Transition) : List Transition :=
  ⟨0, 1, lb, true, false, false⟩ :: ts ++ [⟨f, n, le, false, true, false⟩]

structure Bounded (L : Label → Prop) (lb le : Label) (f n : ℕ) (ts : List Transition)
    (N : Graph) : Prop where
  flags : N.flags = (true, false, []) :: List.replicate (n - 1) (false, false, []) ++
    [(false, true, [])]
  transitions : N.transitions = inner lb le f n ts ++ strays 1 n (inner lb le f n ts)
  begins : lb ≠ .null
  ends : le ≠ .null
  laid : ∀ t ∈ ts, Laid {1} {1} 2 n L t
  final : Own 1 2 n f
  idle : f = 1 → ts = []
  le : 2 ≤ n
  path : ∃ w, Walk N.edges 1 w f

/-- A bound is a single event. -/
theorem parse_bound {init cleanup : Bool} (hbound : (init || cleanup) = true)
    (h : P.parse fuel e s init cleanup g = .ok (f, g')) :
    ∃ l, l ≠ .null ∧ P.label e = some l ∧ e.event = l.letter ∧
      parseEvent l s init cleanup g = (f, g') := by
  cases fuel with
  | zero => cases h
  | succ fuel =>
    cases e with
    | assertionSite | function | fieldAssign =>
      refine ⟨_, ?_, rfl, rfl, Except.ok.inj h⟩
      intro hnull
      cases hnull
    | booleanExpr | sequence | nullExpr | subAutomaton =>
      obtain ⟨u, hu, _⟩ := bind_eq_ok.mp h
      obtain ⟨text, htext⟩ := bounds_panic _ hbound
      rw [htext] at hu
      cases hu

theorem parseAutomaton_bounded (hb : use.beginning = some b) (he : use.ending = some e)
    (h : P.parseAutomaton fuel (some use) = .ok N) :
    ∃ lb le f n ts, P.label b = some lb ∧ P.label e = some le ∧ b.event = lb.letter ∧
      e.event = le.letter ∧
      Bounded (· ∈ P.labels fuel P.automaton.expression) lb le f n ts N := by
  simp only [Parser.parseAutomaton, Option.bind_some, hb, he] at h
  obtain ⟨⟨s₁, g₁⟩, h₁, h⟩ := bind_eq_ok.mp h
  obtain ⟨⟨f, g₂⟩, h₂, h⟩ := bind_eq_ok.mp h
  obtain ⟨⟨n, g₃⟩, h₃, h⟩ := bind_eq_ok.mp h
  obtain rfl := Except.ok.inj h
  obtain ⟨lb, hlb₀, hlb, hbe, hb₁⟩ := parse_bound rfl h₁
  obtain ⟨le, hle₀, hle, hee, he₃⟩ := parse_bound rfl h₃
  generalize hg₀ : (Graph.empty.newState true false [] (some P.automaton.argument.length)).2 = g₀
    at hb₁
  have hlen₀ : g₀.states.length = 1 := by rw [← hg₀]; rfl
  have htrans₀ : g₀.transitions = [] := by rw [← hg₀]; rfl
  have hflags₀ : g₀.flags = [(true, false, [])] := by rw [← hg₀]; rfl
  obtain ⟨hfinal₁, hlen₁, htrans₁, hflags₁⟩ := parseEvent_spec (s := 0) lb true false g₀
  have hzero : (Graph.empty.newState true false [] (some P.automaton.argument.length)).1 = 0 := rfl
  rw [hzero] at hb₁
  rw [hb₁] at hfinal₁ hlen₁ htrans₁ hflags₁
  rw [hlen₀] at hfinal₁ hlen₁ htrans₁
  rw [htrans₀] at htrans₁
  rw [hflags₀] at hflags₁
  simp only at hfinal₁ hlen₁ htrans₁ hflags₁
  obtain rfl := hfinal₁
  have hscoped : g₁.Scoped := by
    intro t ht
    rw [htrans₁, List.nil_append] at ht
    obtain rfl := List.mem_singleton.mp ht
    show 0 < g₁.states.length
    omega
  have hled := P.parse_led fuel P.automaton.expression 1 g₁ f g₂ (by omega) hscoped h₂
  obtain ⟨ts, hgrows, hlaid⟩ := hled.steps.laid
  obtain ⟨hfinal₃, hlen₃, htrans₃, hflags₃⟩ := parseEvent_spec (s := f) le false true g₂
  rw [he₃] at hfinal₃ hlen₃ htrans₃ hflags₃
  simp only at hfinal₃ hlen₃ htrans₃ hflags₃
  obtain rfl := hfinal₃
  have htrans : g₃.transitions = inner lb le f g₂.states.length ts := by
    rw [htrans₃, hgrows.transitions, htrans₁]
    rfl
  obtain ⟨hout, hflags⟩ := addOutOfScope_spec 1 g₂.states.length g₃
  have hn := hgrows.le
  rw [hlen₁] at hlaid hn
  refine ⟨lb, le, f, g₂.states.length, ts, hlb, hle, hbe, hee, ?_, ?_, hlb₀, hle₀, hlaid, ?_,
    ?_, hn, ?_⟩
  · rw [hflags, hflags₃, hgrows.flags, hflags₁, hlen₁]
    have hsub : g₂.states.length - 1 = g₂.states.length - 2 + 1 := by omega
    rw [hsub, List.replicate_succ]
    rfl
  · rw [hout, htrans]
  · have hfin := hled.final
    rwa [hlen₁] at hfin
  · rintro rfl
    have hsame : g₂ = g₁ := Parser.parse_idle (by omega) hscoped h₂
    have htrans₂ := hgrows.transitions
    rwa [hsame, List.self_eq_append_right] at htrans₂
  · obtain ⟨w, hw⟩ := hled.path
    refine ⟨w, hw.mono ?_⟩
    intro e he
    rw [Graph.edges, hout, htrans₃, List.map_append, List.map_append]
    exact List.mem_append_left _ (List.mem_append_left _ he)

namespace Bounded

/-- A transition, by where it comes from. -/
theorem cases (h : Bounded L lb le f n ts N) (ht : t ∈ N.transitions) :
    t = ⟨0, 1, lb, true, false, false⟩ ∨ t ∈ ts ∨ t = ⟨f, n, le, false, true, false⟩ ∨
      (∃ u ∈ ts, t = ⟨1, 1, u.label, false, false, true⟩) ∨ t = ⟨1, n, le, false, true, true⟩ := by
  rw [h.transitions, List.mem_append] at ht
  obtain ht | ht := ht
  · rw [inner, List.cons_append, List.mem_cons, List.mem_append, List.mem_singleton] at ht
    obtain ht | ht | ht := ht
    · exact .inl ht
    · exact .inr (.inl ht)
    · exact .inr (.inr (.inl ht))
  · obtain ⟨u, hu, hstray⟩ := List.mem_filterMap.mp ht
    obtain rfl := Transition.stray_label hstray
    obtain ⟨hu, _, hinit⟩ := (mem_outOfScope hu).resolve_left List.not_mem_nil
    rw [inner, List.cons_append, List.mem_cons, List.mem_append, List.mem_singleton] at hu
    obtain rfl | hu | rfl := hu
    · cases hinit
    · have hlaid := h.laid u hu
      rw [hlaid.cleanup, hlaid.init]
      exact .inr (.inr (.inr (.inl ⟨u, hu, rfl⟩)))
    · exact .inr (.inr (.inr (.inr rfl)))

theorem isStart_iff (h : Bounded L lb le f n ts N) : N.isStart s = true ↔ s = 0 := by
  refine Automata.isStart_iff (h.flags.trans (List.cons_append ..)) ?_ rfl s
  simp only [List.mem_append, List.mem_replicate, List.mem_singleton]
  rintro z (⟨_, rfl⟩ | rfl) <;> rfl

theorem isAccepting_iff (h : Bounded L lb le f n ts N) : N.isAccepting s = true ↔ s = n := by
  have hle := h.le
  rw [Automata.isAccepting_iff h.flags ?_ rfl s]
  · simp only [List.length_cons, List.length_replicate]
    omega
  · simp only [List.mem_cons, List.mem_replicate]
    rintro z (rfl | ⟨_, rfl⟩) <;> rfl

theorem begins_edge (h : Bounded L lb le f n ts N) : ⟨0, lb.letter, 1⟩ ∈ N.edges := by
  refine List.mem_map.mpr ⟨⟨0, 1, lb, true, false, false⟩, ?_, rfl⟩
  rw [h.transitions]
  exact List.mem_append_left _ List.mem_cons_self

/-- What lies in the expression is neither its last state nor the first. -/
theorem among (h : Bounded L lb le f n ts N) (hs : Among {1} 2 n s) : 1 ≤ s ∧ s < n := by
  have hle := h.le
  obtain rfl | hs := hs <;> omega

/-- Null transitions stay in the expression. -/
theorem nullStep {p q : ℕ} (h : Bounded L lb le f n ts N) (hstep : N.NullStep p q) :
    1 ≤ q ∧ q < n := by
  obtain ⟨t, ht, hedge⟩ := List.mem_map.mp hstep
  obtain ⟨_, hlab, rfl⟩ := Edge.mk.inj hedge
  have hnull := Label.letter_eq_none.mp hlab
  obtain rfl | ht | rfl | ⟨u, hu, rfl⟩ | rfl := h.cases ht
  · exact absurd hnull h.begins
  · exact h.among (h.laid t ht).dest
  · exact absurd hnull h.ends
  · exact ⟨le_rfl, h.le⟩
  · exact absurd hnull h.ends

end Bounded

end Tesla.Automata
