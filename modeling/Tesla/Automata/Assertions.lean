/-
# `Tesla.Automata.Assertions` — when the parser trips no assertion

`Transition::Register` asserts that no transition leads to state 0, and
`State::UpdateReferences` that a state is entered again only with what it knows.  With
the passages of the beginning, the expression and the end, that is a condition on the
description:

    sound      what is bound on the way is admitted wherever it comes back to
    no start   without a beginning the first state of the expression is state 0,
               so the expression must not come back to it, and must not hold an event
               that is seen out of scope: its copy stays in that state

A description that is used as a sub-automaton is parsed on its own too, without a usage.
-/
import Tesla.Automata.Passages

namespace Tesla.Automata

open Lib

variable {P : Parser} {fuel s f start stop : ℕ} {e : Expression} {o : Option Expression}
  {use : Option Usage} {l l' : Label} {g g' N : Graph} {t : Transition} {ts us : List Transition}
  {init cleanup : Bool}

/-! ## Out-of-scope transitions -/

theorem Label.lenient_of_letter (h : l.letter = l'.letter) : l.lenient = l'.lenient := by
  cases l <;> cases l' <;> simp_all [letter, lenient]

theorem Label.isStrict_of_lenient (h : l.lenient = true) : l.isStrict = false := by
  cases l <;> simp_all [isStrict, lenient]

theorem Label.lenient_cases (h : l.lenient = true) :
    (∃ ev, l = .fn ev) ∨ ∃ assign, l = .fieldAssign assign := by
  cases l with
  | fn ev => exact .inl ⟨ev, rfl⟩
  | fieldAssign assign => exact .inr ⟨assign, rfl⟩
  | null | assertSite | subAutomaton => cases h

/-- Each copy adds the assertion that it does not lead to state 0. -/
theorem foldl_copy_failed (hstart : g.refsAt start ≠ none) (hstop : g.refsAt stop ≠ none)
    (hlt : start < g.states.length ∧ stop < g.states.length)
    (hus : ∀ t ∈ us, t.label.isStrict = false ∧ t.init = false) :
    (us.foldl (fun g t => match t.label with
        | .assertSite .. | .null | .subAutomaton _ => g
        | .fieldAssign _ | .fn _ => g.copy start (if t.cleanup then stop else start) t true)
      g).failed = [] ↔ g.failed = [] ∧
        ∀ t ∈ us, t.label.lenient = true → (if t.cleanup then stop else start) ≠ 0 := by
  induction us generalizing g with
  | nil => simp
  | cons t us ih =>
    obtain ⟨⟨hstrict, hinit⟩, hus⟩ := List.forall_mem_cons.mp hus
    rw [List.foldl_cons, List.forall_mem_cons]
    -- a lenient event is copied, nothing else is
    have hcopied : t.label.lenient = true → ∀ g : Graph,
        g.copy start (if t.cleanup then stop else start) t true = g.register
          ⟨start, if t.cleanup then stop else start, t.label, t.init, t.cleanup, true⟩ := by
      intro hlenient g
      obtain ⟨ev, hl⟩ | ⟨assign, hl⟩ := Label.lenient_cases hlenient
      · simp [Graph.copy, Graph.check, hl, hinit]
      · simp [Graph.copy, Graph.check, hl, hinit]
    by_cases hlenient : t.label.lenient = true
    · have hdest : (if t.cleanup then stop else start) < g.states.length := by
        split
        · exact hlt.2
        · exact hlt.1
      have hrefs : g.refsAt (if t.cleanup then stop else start) ≠ none := by
        split
        · exact hstop
        · exact hstart
      have hkept : ∀ {y}, g.refsAt y ≠ none → (g.register ⟨start, if t.cleanup then stop else start,
          t.label, t.init, t.cleanup, true⟩).refsAt y ≠ none := by
        intro y hy
        obtain ⟨R, hR⟩ := Option.ne_none_iff_exists'.mp hy
        rw [Graph.register_kept hdest hR]
        exact Option.some_ne_none R
      have hmatch : (match t.label with
          | .assertSite .. | .null | .subAutomaton _ => g
          | .fieldAssign _ | .fn _ => g.copy start (if t.cleanup then stop else start) t true) =
          g.register ⟨start, if t.cleanup then stop else start, t.label, t.init, t.cleanup,
            true⟩ := by
        rw [← hcopied hlenient]
        obtain ⟨ev, hl⟩ | ⟨assign, hl⟩ := Label.lenient_cases hlenient
        · rw [hl]
        · rw [hl]
      rw [hmatch, ih (hkept hstart) (hkept hstop) (by simpa using hlt) hus,
        Graph.register_failed_outOfScope hdest rfl hrefs, and_assoc]
      simp [hlenient]
    · have hmatch : (match t.label with
          | .assertSite .. | .null | .subAutomaton _ => g
          | .fieldAssign _ | .fn _ => g.copy start (if t.cleanup then stop else start) t true) =
          g := by
        cases hl : t.label with
        | null | assertSite | subAutomaton => rfl
        | fn ev | fieldAssign assign =>
          rw [hl] at hstrict hlenient
          simp only [Label.lenient, Label.isStrict] at hstrict hlenient
          simp [hstrict] at hlenient
      rw [hmatch, ih hstart hstop hlt hus]
      simp [hlenient]

theorem addOutOfScope_failed (hstart : g.refsAt start ≠ none) (hstop : g.refsAt stop ≠ none)
    (hlt : start < g.states.length ∧ stop < g.states.length) :
    (Parser.addOutOfScope start stop g).failed = [] ↔ g.failed = [] ∧
      ∀ t ∈ Parser.outOfScope [] g.transitions, t.label.lenient = true →
        (if t.cleanup then stop else start) ≠ 0 := by
  refine foldl_copy_failed hstart hstop hlt ?_
  intro t ht
  exact ((mem_outOfScope ht).resolve_left List.not_mem_nil).2

theorem outOfScope_append (noted ts us : List Transition) :
    Parser.outOfScope noted (ts ++ us) = Parser.outOfScope (Parser.outOfScope noted ts) us := by
  induction ts generalizing noted with
  | nil => rfl
  | cons t ts ih =>
    rw [List.cons_append, Parser.outOfScope, Parser.outOfScope, ih, ih]
    split <;> rfl

/-- Of the events that are seen out of scope, one that does not clean up is noted just
when there is one before the end. -/
theorem exists_noted_iff (hts : ∀ t ∈ ts, t.init = false ∧ t.cleanup = false)
    (hus : ∀ t ∈ us, t.cleanup = true) :
    (∃ t ∈ Parser.outOfScope [] (ts ++ us), t.label.lenient = true ∧ t.cleanup = false) ↔
      Lenient ts := by
  constructor
  · rintro ⟨t, ht, hlenient, hcleanup⟩
    obtain ⟨ht, _⟩ := (mem_outOfScope ht).resolve_left List.not_mem_nil
    obtain ht | ht := List.mem_append.mp ht
    · exact ⟨t, ht, hlenient⟩
    · rw [hus t ht] at hcleanup
      cases hcleanup
  · rintro ⟨t, ht, hlenient⟩
    obtain ⟨u, hu, hletter⟩ := exists_outOfScope [] ht (Label.isStrict_of_lenient hlenient)
      (hts t ht).1
    obtain ⟨hmem, _⟩ := (mem_outOfScope hu).resolve_left List.not_mem_nil
    refine ⟨u, ?_, by rw [Label.lenient_of_letter hletter, hlenient], (hts u hmem).2⟩
    rw [outOfScope_append]
    exact subset_outOfScope hu

/-- Without a beginning the copies stay in state 0, those of the end apart. -/
theorem noted_iff (hts : ∀ t ∈ ts, t.init = false ∧ t.cleanup = false)
    (hus : ∀ t ∈ us, t.cleanup = true) (hstop : us ≠ [] → stop ≠ 0) :
    (∀ t ∈ Parser.outOfScope [] (ts ++ us), t.label.lenient = true →
      (if t.cleanup then stop else 0) ≠ 0) ↔ ¬ Lenient ts := by
  rw [← exists_noted_iff hts hus]
  constructor
  · rintro h ⟨t, ht, hlenient, hcleanup⟩
    have := h t ht hlenient
    rw [hcleanup] at this
    exact this rfl
  · intro h t ht hlenient
    cases hcleanup : t.cleanup with
    | false => exact absurd ⟨t, ht, hlenient, hcleanup⟩ h
    | true =>
      obtain ⟨hmem, _⟩ := (mem_outOfScope ht).resolve_left List.not_mem_nil
      obtain hmem | hmem := List.mem_append.mp hmem
      · rw [(hts t hmem).2] at hcleanup
        cases hcleanup
      · exact hstop (List.ne_nil_of_mem hmem)

/-! ## The bounds -/

/-- The passage of a bound, if there is one. -/
def Parser.bound (P : Parser) (fuel : ℕ) (o : Option Expression) (R : References) : Passage :=
  match o with
  | some e => P.passage fuel e R
  | none => .null R

/-- The parse of a bound, if there is one. -/
theorem bound_passes (hbound : (init || cleanup) = true) (hs : s < g.states.length) (hg : g.Tracked)
    (h : (match o with
      | some e => P.parse fuel e s init cleanup g
      | none => pure (s, g)) = .ok (f, g')) :
    Passes s (P.bound fuel o (g.refsFrom s)) g f g' ∧ g'.Tracked ∧ f < g'.states.length ∧
      ((P.bound fuel o (g.refsFrom s)).idle = true ↔ o = none) ∧
      (P.bound fuel o (g.refsFrom s)).back = false ∧
      ∃ ts, g'.transitions = g.transitions ++ ts ∧
        ∀ t ∈ ts, t.init = init ∧ t.cleanup = cleanup := by
  cases o with
  | none =>
    obtain ⟨rfl, rfl⟩ := Prod.mk.inj (Except.ok.inj h)
    exact ⟨.null s g, hg, hs, by simp [Parser.bound, Passage.null], rfl, [],
      by simp, by simp⟩
  | some e =>
    obtain ⟨l, _, hlabel, _, heq⟩ := parse_bound hbound h
    have hpassage : P.bound fuel (some e) (g.refsFrom s) = .event l (g.refsFrom s) := by
      cases fuel with
      | zero => cases h
      | succ fuel =>
        cases e with
        | assertionSite | function | fieldAssign =>
          obtain rfl := Option.some.inj hlabel
          rfl
        | booleanExpr | sequence | nullExpr | subAutomaton => cases hlabel
    obtain ⟨hfst, hlen, htrans, _⟩ := parseEvent_spec (s := s) l init cleanup g
    have hpass := Passes.event hs hg l init cleanup
    have htracked : (parseEvent l s init cleanup g).2.Tracked := by
      have hnew := Graph.newState_length (g := g) false cleanup [] none
      exact (hg.newState cleanup).register (show s < _ by omega) (show g.states.length < _ by omega)
    simp only [heq] at hfst hlen htrans hpass htracked
    obtain rfl := hfst
    refine ⟨hpassage ▸ hpass, htracked, by omega, ?_, ?_, _, htrans, ?_⟩
    · simp [hpassage, Passage.event]
    · rw [hpassage]
      rfl
    · simp

/-! ## The automaton -/

namespace Parser

/-- The beginning, from a start state that knows no variable. -/
def opening (P : Parser) (fuel : ℕ) (use : Option Usage) : Passage :=
  P.bound fuel (use.bind (·.beginning)) (List.replicate P.automaton.argument.length none)

def middle (P : Parser) (fuel : ℕ) (use : Option Usage) : Passage :=
  P.passage fuel P.automaton.expression (P.opening fuel use).refs

def closing (P : Parser) (fuel : ℕ) (use : Option Usage) : Passage :=
  P.bound fuel (use.bind (·.ending)) (P.middle fuel use).refs

structure Consistent (P : Parser) (fuel : ℕ) (use : Option Usage) : Prop where
  opening : (P.opening fuel use).sound = true
  middle : (P.middle fuel use).sound = true
  closing : (P.closing fuel use).sound = true
  start : use.bind (·.beginning) = none →
    (P.middle fuel use).back = false ∧ (P.middle fuel use).lenient = false

end Parser

/-- The graph of the start state alone. -/
def Graph.initial (n : ℕ) : Graph := (Graph.empty.newState true false [] (some n)).2

theorem Graph.initial_tracked (n : ℕ) : (Graph.initial n).Tracked := by
  refine ⟨fun t ht => absurd ht List.not_mem_nil, ?_, fun t ht => absurd ht List.not_mem_nil⟩
  intro x R hR i a ha
  cases x with
  | zero =>
    obtain rfl : List.replicate n none = R := Option.some.inj hR
    rw [List.getElem?_replicate] at ha
    split at ha
    · cases Option.some.inj ha
    · cases ha
  | succ x => cases hR

theorem Parser.parseAutomaton_ok (h : P.parseAutomaton fuel use = .ok N) :
    ∃ start g₁ f g₂ stop g₃,
      (match use.bind (·.beginning) with
        | some e => P.parse fuel e 0 true false (.initial P.automaton.argument.length)
        | none => pure (0, .initial P.automaton.argument.length)) = .ok (start, g₁) ∧
      P.operand fuel P.automaton.expression start g₁ = .ok (f, g₂) ∧
      (match use.bind (·.ending) with
        | some e => P.parse fuel e f false true g₂
        | none => pure (f, g₂)) = .ok (stop, g₃) ∧
      N = addOutOfScope start stop g₃ := by
  rw [parseAutomaton] at h
  cases hb : use.bind (·.beginning) with
  | none | some b =>
    rw [hb] at h
    obtain ⟨⟨start, g₁⟩, h₁, h⟩ := bind_eq_ok.mp h
    obtain ⟨⟨f, g₂⟩, h₂, h⟩ := bind_eq_ok.mp h
    cases he : use.bind (·.ending) with
    | none | some e =>
      rw [he] at h
      obtain ⟨⟨stop, g₃⟩, h₃, h⟩ := bind_eq_ok.mp h
      exact ⟨start, g₁, f, g₂, stop, g₃, h₁, h₂, h₃, (Except.ok.inj h).symm⟩

/-- No assertion fails while an automaton is built just when its description is
consistent. -/
theorem assertions_hold_iff (h : P.parseAutomaton fuel use = .ok N) :
    N.failed = [] ↔ P.Consistent fuel use := by
  obtain ⟨start, g₁, f, g₂, stop, g₃, h₁, h₂, h₃, rfl⟩ := Parser.parseAutomaton_ok h
  have h0 : 0 < (Graph.initial P.automaton.argument.length).states.length := Nat.one_pos
  obtain ⟨hopen, hg₁, hstart, hnone, hback, _⟩ :=
    bound_passes rfl h0 (Graph.initial_tracked P.automaton.argument.length) h₁
  have hopen : Passes 0 (P.opening fuel use) (Graph.initial P.automaton.argument.length) start g₁ :=
    hopen
  have hback : (P.opening fuel use).back = false := hback
  have hnone : (P.opening fuel use).idle = true ↔ use.bind (·.beginning) = none := hnone
  have hmid := P.parse_passes fuel _ _ _ _ _ hstart hg₁ h₂
  have hled := P.parse_led fuel _ _ _ _ _ hstart hg₁.sources h₂
  have hsub : ∀ x ∈ ({start} : Set ℕ), x < g₁.states.length := by
    rintro x rfl
    exact hstart
  have hg₂ := hled.steps.tracked hsub hsub hg₁
  have hf := hled.final_lt hstart
  obtain ⟨hclose, hg₃, hstop, hnone', hback', us, hus, hus'⟩ := bound_passes rfl hf hg₂ h₃
  rw [hopen.refs] at hmid
  rw [hmid.refs] at hclose hnone' hback'
  have hmid : Passes start (P.middle fuel use) g₁ f g₂ := hmid
  have hclose : Passes f (P.closing fuel use) g₂ stop g₃ := hclose
  have hback' : (P.closing fuel use).back = false := hback'
  have hknown₁ : g₁.refsAt start ≠ none := hopen.final_known nofun
  have hknown : g₃.refsAt start ≠ none :=
    hclose.known (hstart.trans_le hmid.le) (hmid.known hstart hknown₁)
  have hknown' : g₃.refsAt stop ≠ none := hclose.final_known (hmid.final_known hknown₁)
  have hlen₁ : 0 < g₁.states.length := by omega
  have hlen₂ : 0 < g₂.states.length := by omega
  have hinitial : (Graph.initial P.automaton.argument.length).failed = [] := rfl
  have hstarts : (use.bind (·.beginning) = none → start = 0 ∧ g₁ = .initial P.automaton.argument.length) ∧
      (use.bind (·.beginning) ≠ none → start ≠ 0) := by
    refine ⟨fun hn => hopen.idle (hnone.mpr hn), fun hn => ?_⟩
    exact hopen.final_ne_zero h0 fun hidle => absurd (hnone.mp hidle) hn
  have hnoted : (∀ t ∈ Parser.outOfScope [] g₃.transitions, t.label.lenient = true →
      (if t.cleanup then stop else start) ≠ 0) ↔
      (use.bind (·.beginning) = none → (P.middle fuel use).lenient = false) := by
    by_cases hn : use.bind (·.beginning) = none
    · obtain ⟨rfl, rfl⟩ := hstarts.1 hn
      obtain ⟨ts, hgrows, hts⟩ := hled.steps.laid
      obtain ⟨ts', htrans, hlenient⟩ := hmid.laid
      obtain rfl : ts' = ts := List.append_cancel_left (htrans.symm.trans hgrows.transitions)
      have hall : g₃.transitions = ts' ++ us := by
        rw [hus, htrans]
        rfl
      rw [hall, noted_iff (fun t ht => ⟨(hts t ht).init, (hts t ht).cleanup⟩)
        (fun t ht => (hus' t ht).2), ← hlenient]
      · simp [hn]
      · intro hne
        refine hclose.final_ne_zero hlen₂ ?_
        intro hidle
        rw [(hclose.idle hidle).2, List.self_eq_append_right] at hus
        exact absurd hus hne
    · refine iff_of_true ?_ (absurd · hn)
      intro t _ _
      split
      · exact hclose.final_ne_zero hlen₂ fun _ => hmid.final_ne_zero hlen₁ fun _ => hstarts.2 hn
      · exact hstarts.2 hn
  have hzero : ((P.middle fuel use).back = true → start ≠ 0) ↔
      (use.bind (·.beginning) = none → (P.middle fuel use).back = false) := by
    by_cases hn : use.bind (·.beginning) = none
    · simp [hn, (hstarts.1 hn).1]
    · simp [hn, hstarts.2 hn]
  rw [addOutOfScope_failed hknown hknown' ⟨hstart.trans_le (hmid.le.trans hclose.le), hstop⟩,
    hclose.failed, hmid.failed, hopen.failed, hback, hback', hinitial, hnoted, hzero]
  constructor
  · rintro ⟨⟨⟨⟨_, hopening, _⟩, hmiddle, hcomes⟩, hclosing, _⟩, hlenient⟩
    exact ⟨hopening, hmiddle, hclosing, fun hn => ⟨hcomes hn, hlenient hn⟩⟩
  · rintro ⟨hopening, hmiddle, hclosing, hbegin⟩
    exact ⟨⟨⟨⟨rfl, hopening, nofun⟩, hmiddle, fun hn => (hbegin hn).1⟩, hclosing, nofun⟩,
      fun hn => (hbegin hn).2⟩

/-! `read (x)`, any number of times: within a call, and on its own. -/

def variableX : Argument := .mk .variable (some 0) (some "x") none none none none none

def reads : AutomatonDescription :=
  ⟨⟨some "reads", none⟩, .global,
    .sequence [.function { Parser.callTo "read" with argument := [variableX] }] 0
      infiniteRepetitions, [variableX]⟩

theorem assertions_hold_iff_reads :
    ∃ N, NFA.link false reads (some withinCall) (fun _ => none) 3 = .ok N ∧ N.failed = [] := by
  obtain ⟨N, hN⟩ : ∃ N, NFA.link false reads (some withinCall) (fun _ => none) 3 = .ok N :=
    ⟨_, rfl⟩
  refine ⟨N, hN, (assertions_hold_iff hN).mpr ⟨?_, ?_, ?_, nofun⟩⟩
  · decide
  · decide
  · decide

/-- `read (x)`, then either any number of calls of `y` or one of `z`. -/
def readThenLoop : AutomatonDescription :=
  { reads with
    expression := .sequence [.function { Parser.callTo "read" with argument := [variableX] },
      .booleanExpr .xor (.sequence [.function (Parser.callTo "y")] 0 infiniteRepetitions)
        (.function (Parser.callTo "z"))] 1 1 }

/-- The loop of a description that is parsed on its own leads to state 0; the start of an
operand that loops is entered again when a variable is bound. -/
theorem loop_trips_assertions :
    (∃ N, NFA.parse false reads none 3 = .ok N ∧ .destNotStart ∈ N.failed) ∧
      ∃ N, NFA.link false readThenLoop (some withinCall) (fun _ => none) 5 = .ok N ∧
        .sameSize ∈ N.failed := by
  refine ⟨⟨_, rfl, ?_⟩, _, rfl, ?_⟩
  · decide
  · decide

end Tesla.Automata
