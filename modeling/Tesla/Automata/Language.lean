/-
# `Tesla.Automata.Language` — the language of a parsed expression

`parse_realises` puts the lemmas of `Construction` and `InclusiveOr` together: on
every expression for which `runs` is defined, the parser succeeds and builds a
piece that reads `runs`, whatever graph it starts from.  So the language of an
expression does not depend on where it stands, and can be read off the expression
parsed alone (`language`).
-/
import Tesla.Automata.InclusiveOr

namespace Tesla.Automata

open Lib Computability

variable {P : Parser} {fuel n m : ℕ} {e : Expression} {a : Letter} {g g' : Graph} {s f : ℕ}
  {r : Runs Letter}

namespace Parser

/-! ## Single events -/

/-- The label of an event, as the parser makes it. -/
def label (P : Parser) : Expression → Option Label
  | .assertionSite site => some (.assertSite site P.siteRefs)
  | .function ev => some (.fn ev)
  | .fieldAssign assign => some (.fieldAssign assign)
  | .booleanExpr .. | .sequence .. | .nullExpr | .subAutomaton _ => none

theorem parse_event (ha : e.event = some a) (fuel s : ℕ) (init cleanup : Bool) (g : Graph) :
    ∃ l, P.label e = some l ∧ l.letter = some a ∧
      P.parse (fuel + 1) e s init cleanup g = .ok (parseEvent l s init cleanup g) := by
  cases e with
  | assertionSite | function | fieldAssign => exact ⟨_, rfl, ha, rfl⟩
  | booleanExpr | sequence | nullExpr | subAutomaton => cases ha

theorem parse_single (ha : P.single fuel e = some a) (s : ℕ) (g : Graph) :
    ∃ l : Label, l.letter = some a ∧
      P.parse fuel e s false false g = .ok (parseEvent l s false false g) := by
  induction fuel generalizing e with
  | zero => cases ha
  | succ fuel ih =>
    by_cases he : ∃ id, e = .subAutomaton id
    · obtain ⟨id, rfl⟩ := he
      rw [single] at ha
      split at ha
      · next hsub =>
        refine ⟨.subAutomaton id, ha, ?_⟩
        simp [parse, bounds, hsub]
      · next hsub =>
        obtain ⟨d, hd, ha⟩ := Option.bind_eq_some_iff.mp ha
        obtain ⟨l, hl, hparse⟩ := ih ha
        refine ⟨l, hl, ?_⟩
        simp [parse, bounds, hsub, hd, hparse]
        rfl
    · have hev : e.event = some a := by
        cases e with
        | subAutomaton id => exact absurd ⟨id, rfl⟩ he
        | booleanExpr | sequence | nullExpr | assertionSite | function | fieldAssign => exact ha
      obtain ⟨l, _, hl, hparse⟩ := parse_event hev fuel s false false g
      exact ⟨l, hl, hparse⟩

/-! ## All expressions -/

/-- The recursive call. -/
def operand (P : Parser) (fuel : ℕ) : Operand := fun e s g => P.parse fuel e s false false g

/-- An inclusive OR whose left operand is parsed as a single event. -/
theorem parseBoolean_or_built {parse : Operand} {R : Expression → Option (Runs Letter)}
    (hp : Realises parse R) {lhs rhs : Expression} {l : Label} (ha : l.letter = some a)
    (hl : parse lhs g.states.length
      ((g.newState false false [] none).2.newState false false [] none).2 =
        .ok (parseEvent l g.states.length false false
          ((g.newState false false [] none).2.newState false false [] none).2))
    (hr : R rhs = some r) (hs : s < g.states.length) (hg : g.Scoped) :
    ∃ f g' ts, parseBoolean false parse .or lhs rhs s g = .ok (f, g') ∧
      Built g g' ts s f (r.merge a) := by
  have hlen₀ : ((g.newState false false [] none).2.newState false false [] none).2.states.length =
      g.states.length + 2 := by simp [Graph.newState_length]
  have hg₀ := hg.newState.newState
  have hbl := Built.event (s := g.states.length) ha (g :=
    ((g.newState false false [] none).2.newState false false [] none).2) (by omega)
  obtain ⟨-, hlen, -, -⟩ := parseEvent_spec (s := g.states.length) l false false
    ((g.newState false false [] none).2.newState false false [] none).2
  rw [hlen₀] at hlen hbl
  obtain ⟨rf, g₂, ts, hparse, hbr⟩ := hp rhs r hr (g.states.length + 1) _
    (by rw [hlen]; omega) (hbl.scoped hg₀)
  obtain ⟨ts', hbuilt⟩ := Built.merge ha hbl.grows hlen rfl rfl hbr hs hg
  have heq := parseBoolean_eq (s := s) false .or hl hparse
  rw [if_pos rfl, hlen₀] at heq
  exact ⟨_, _, ts', heq, hbuilt⟩

theorem parse_realises (P : Parser) (fuel : ℕ) : Realises (P.operand fuel) (P.runs fuel) := by
  induction fuel with
  | zero => intro e r hr; cases hr
  | succ fuel ih =>
    intro e r hr s g hs hg
    cases e with
    | nullExpr =>
      obtain rfl := Option.some.inj hr
      exact ⟨s, g, [], rfl, .null hs⟩
    | assertionSite site =>
      obtain rfl := Option.some.inj hr
      exact ⟨_, _, _, rfl, .event rfl hs⟩
    | function ev =>
      obtain rfl := Option.some.inj hr
      exact ⟨_, _, _, rfl, .event rfl hs⟩
    | fieldAssign assign =>
      obtain rfl := Option.some.inj hr
      exact ⟨_, _, _, rfl, .event rfl hs⟩
    | sequence es minReps maxReps =>
      obtain ⟨rs, hrs, hr⟩ := Option.bind_eq_some_iff.mp hr
      obtain rfl := Option.some.inj hr
      obtain ⟨f, g', ts, hparse, hbuilt⟩ :=
        parseSequence_built ih hrs minReps maxReps hs hg
      exact ⟨f, g', ts, hparse, hbuilt⟩
    | subAutomaton id =>
      rw [runs] at hr
      split at hr
      · next hsub =>
        obtain rfl := Option.some.inj hr
        refine ⟨_, _, _, ?_, .event (show (Label.subAutomaton id).letter = _ from rfl) hs⟩
        simp [operand, parse, bounds, hsub]
        rfl
      · next hsub =>
        obtain ⟨d, hd, hr⟩ := Option.bind_eq_some_iff.mp hr
        obtain ⟨f, g', ts, hparse, hbuilt⟩ := ih d.expression r hr s g hs hg
        refine ⟨f, g', ts, ?_, hbuilt⟩
        rw [operand] at hparse ⊢
        simp [parse, bounds, hsub, hd, hparse]
        rfl
    | booleanExpr operation lhs rhs =>
      obtain ⟨rl, hrl, hr⟩ := Option.bind_eq_some_iff.mp hr
      obtain ⟨rr, hrr, hr⟩ := Option.bind_eq_some_iff.mp hr
      have hparse : P.operand (fuel + 1) (.booleanExpr operation lhs rhs) s g =
        parseBoolean P.suppressInclusiveOr (P.operand fuel) operation lhs rhs s g := rfl
      obtain ⟨lf, rf, g₁, g₂, ts, ts', hl, hr', hbl, hbr⟩ := operands_built ih hrl hrr hg
      rw [hparse]
      cases operation with
      | xor =>
        obtain rfl := Option.some.inj hr
        exact ⟨_, _, _, parseBoolean_eq _ _ hl hr', hbl.choice hbr hs⟩
      | and =>
        obtain rfl := Option.some.inj hr
        exact ⟨_, _, _, parseBoolean_eq _ _ hl hr', hbl.choice hbr hs⟩
      | or =>
        cases hsup : P.suppressInclusiveOr with
        | true =>
          rw [hsup] at hr
          obtain rfl := Option.some.inj hr
          exact ⟨_, _, _, parseBoolean_eq _ _ hl hr', hbl.choice hbr hs⟩
        | false =>
          rw [hsup] at hr
          obtain ⟨a, ha, rfl⟩ := Option.map_eq_some_iff.mp hr
          obtain ⟨l, hletter, hevent⟩ := parse_single ha g.states.length
            ((g.newState false false [] none).2.newState false false [] none).2
          exact parseBoolean_or_built ih hletter hevent hrr hs hg

/-! ## Depth -/

theorem single_mono (ha : P.single n e = some a) (hle : n ≤ m) : P.single m e = some a := by
  induction n generalizing m e with
  | zero => cases ha
  | succ n ih =>
    obtain ⟨m, rfl⟩ := Nat.exists_eq_add_of_lt (Nat.lt_of_succ_le hle)
    cases e with
    | subAutomaton id =>
      rw [single] at ha ⊢
      split at ha
      · next h => rwa [if_pos h]
      · next h =>
        rw [if_neg h]
        obtain ⟨d, hd, ha⟩ := Option.bind_eq_some_iff.mp ha
        exact Option.bind_eq_some_iff.mpr ⟨d, hd, ih ha (by omega)⟩
    | booleanExpr | sequence | nullExpr | assertionSite | function | fieldAssign => exact ha

theorem mapM_mono {α β : Type*} {f f' : α → Option β} (hf : ∀ x y, f x = some y → f' x = some y)
    {xs : List α} {ys : List β} (h : xs.mapM f = some ys) : xs.mapM f' = some ys := by
  induction xs generalizing ys with
  | nil => exact h
  | cons x xs ih =>
    rw [List.mapM_cons] at h ⊢
    obtain ⟨y, hy, h⟩ := Option.bind_eq_some_iff.mp h
    obtain ⟨ys', hys, h⟩ := Option.bind_eq_some_iff.mp h
    exact Option.bind_eq_some_iff.mpr ⟨y, hf x y hy,
      Option.bind_eq_some_iff.mpr ⟨ys', ih hys, h⟩⟩

/-- Deeper recursion does not change what is built. -/
theorem runs_mono (hr : P.runs n e = some r) (hle : n ≤ m) : P.runs m e = some r := by
  induction n generalizing m e r with
  | zero => cases hr
  | succ n ih =>
    obtain ⟨m, rfl⟩ := Nat.exists_eq_add_of_lt (Nat.lt_of_succ_le hle)
    cases e with
    | subAutomaton id =>
      rw [runs] at hr ⊢
      split at hr
      · next h => rwa [if_pos h]
      · next h =>
        rw [if_neg h]
        obtain ⟨d, hd, hr⟩ := Option.bind_eq_some_iff.mp hr
        exact Option.bind_eq_some_iff.mpr ⟨d, hd, ih hr (by omega)⟩
    | sequence es minReps maxReps =>
      obtain ⟨rs, hrs, hr⟩ := Option.bind_eq_some_iff.mp hr
      exact Option.bind_eq_some_iff.mpr ⟨rs, mapM_mono (fun _ _ h => ih h (by omega)) hrs, hr⟩
    | booleanExpr operation lhs rhs =>
      obtain ⟨rl, hrl, hr⟩ := Option.bind_eq_some_iff.mp hr
      obtain ⟨rr, hrr, hr⟩ := Option.bind_eq_some_iff.mp hr
      refine Option.bind_eq_some_iff.mpr ⟨rl, ih hrl (by omega),
        Option.bind_eq_some_iff.mpr ⟨rr, ih hrr (by omega), ?_⟩⟩
      cases operation with
      | xor | and => exact hr
      | or =>
        cases hsup : P.suppressInclusiveOr with
        | true =>
          rw [hsup] at hr
          exact hr
        | false =>
          rw [hsup] at hr
          obtain ⟨a, ha, rfl⟩ := Option.map_eq_some_iff.mp hr
          exact Option.map_eq_some_iff.mpr ⟨a, single_mono ha (by omega), rfl⟩
    | nullExpr | assertionSite | function | fieldAssign => exact hr

theorem runs_of_single (ha : P.single n e = some a) : P.runs n e = some (.event a) := by
  induction n generalizing e with
  | zero => cases ha
  | succ n ih =>
    cases e with
    | subAutomaton id =>
      rw [single] at ha
      rw [runs]
      split at ha
      · next h =>
        rw [if_pos h]
        obtain rfl := Option.some.inj ha
        rfl
      · next h =>
        rw [if_neg h]
        obtain ⟨d, hd, ha⟩ := Option.bind_eq_some_iff.mp ha
        exact Option.bind_eq_some_iff.mpr ⟨d, hd, ih ha⟩
    | assertionSite | function | fieldAssign =>
      obtain rfl := Option.some.inj ha
      rfl
    | booleanExpr | sequence | nullExpr => cases ha

/-! ## Expressions on their own -/

/-- A graph with one state. -/
def alone : Graph := (Graph.empty.newState false false [] none).2

/-- The words between the start and the end of the sub-automaton that is built for
an expression alone. -/
def language (P : Parser) (fuel : ℕ) (e : Expression) : Language Letter :=
  {w | ∃ f g, P.parse fuel e 0 false false alone = .ok (f, g) ∧
    w ∈ (ofEdges g.edges {0} {f}).accepts}

theorem mem_accepts_between {w : List Letter} {E : List (Edge ℕ Letter)} :
    w ∈ (ofEdges E {s} {f}).accepts ↔ Walk E s w f := by
  rw [mem_accepts_ofEdges]
  constructor
  · rintro ⟨_, rfl, _, rfl, h⟩
    exact h
  · exact fun h => ⟨s, rfl, f, rfl, h⟩

theorem language_of_parse (h : P.parse fuel e 0 false false alone = .ok (f, g)) :
    P.language fuel e = walks g.edges 0 f := by
  ext w
  constructor
  · rintro ⟨f', g', h', hw⟩
    obtain ⟨rfl, rfl⟩ := Prod.mk.inj (Except.ok.inj (h'.symm.trans h))
    exact mem_accepts_between.mp hw
  · exact fun hw => ⟨f, g, h, mem_accepts_between.mpr hw⟩

theorem alone_scoped : alone.Scoped := fun _ ht => absurd ht List.not_mem_nil

theorem language_eq (hr : P.runs fuel e = some r) :
    (∃ f g, P.parse fuel e 0 false false alone = .ok (f, g)) ∧ P.language fuel e = r.paths := by
  obtain ⟨f, g, ts, hparse, hbuilt⟩ := P.parse_realises fuel e r hr 0 alone (by decide) alone_scoped
  have hedges : g.edges = ts.map Transition.edge := by
    rw [Graph.edges, hbuilt.grows.transitions]
    rfl
  refine ⟨⟨f, g, hparse⟩, ?_⟩
  rw [language_of_parse hparse, hedges, hbuilt.piece.accept]

/-- Inclusive OR with a single event on its left, also in every inclusive OR inside
its right operand: at least one of the two to its end, in any order. -/
theorem language_or {lhs rhs : Expression} (hor : P.suppressInclusiveOr = false)
    (hlhs : P.single n lhs = some a) (hrhs : (P.runs n rhs).isSome = true) (hfuel : n ≤ fuel) :
    (∃ f g, P.parse (fuel + 1) (.booleanExpr .or lhs rhs) 0 false false alone = .ok (f, g)) ∧
      P.language (fuel + 1) (.booleanExpr .or lhs rhs) =
        inclusive (P.language fuel lhs) (P.language fuel rhs) := by
  obtain ⟨r, hr⟩ := Option.isSome_iff_exists.mp hrhs
  have hsingle := single_mono hlhs hfuel
  have hl := runs_of_single hsingle
  have hr' := runs_mono hr hfuel
  have hruns : P.runs (fuel + 1) (.booleanExpr .or lhs rhs) = some (r.merge a) := by
    refine Option.bind_eq_some_iff.mpr ⟨_, hl, Option.bind_eq_some_iff.mpr ⟨r, hr', ?_⟩⟩
    rw [hor]
    exact Option.map_eq_some_iff.mpr ⟨a, hsingle, rfl⟩
  obtain ⟨hok, hlang⟩ := language_eq hruns
  rw [(language_eq hl).2, (language_eq hr').2]
  exact ⟨hok, hlang⟩

/-- A function call as an event, and its letter. -/
def callTo (name : String) : FunctionEvent :=
  ⟨name, some .entry, some .callee, [], none, none, none, none⟩

def called (name : String) : Letter := .fn (callTo name)

/-- Two calls, one after the other. -/
def twoCalls (x y : String) : Expression :=
  .sequence [.function (callTo x), .function (callTo y)] 1 1

/-- A parser with no sub-automata. -/
def bare : Parser := NFA.linker false ⟨⟨some "demo", none⟩, .global, .nullExpr, []⟩ fun _ => none

theorem language_or_call :
    (∃ f g, bare.parse 4 (.booleanExpr .or (.function (callTo "a")) (twoCalls "c" "d")) 0 false
      false alone = .ok (f, g)) ∧
      bare.language 4 (.booleanExpr .or (.function (callTo "a")) (twoCalls "c" "d")) =
        inclusive (bare.language 3 (.function (callTo "a"))) (bare.language 3 (twoCalls "c" "d")) :=
  language_or (n := 3) (a := called "a") rfl rfl rfl le_rfl

theorem twoCalls_mem (x y : String) :
    [called x, called y] ∈ bare.language 2 (twoCalls x y) := by
  have hr : bare.runs 2 (twoCalls x y) =
      some ((Runs.body [.event (called x), .event (called y)]).repeated 1 1) := rfl
  rw [(language_eq hr).2, Runs.repeated_paths ⟨le_rfl, one_mul _⟩ le_rfl (by decide)]
  refine .inl ⟨1, ⟨le_rfl, .inr le_rfl⟩, ?_⟩
  rw [pow_one]
  have hmem : [called x] ++ ([called y] ++ []) ∈
      ({[called x]} * ({[called y]} * 1) : Language Letter) :=
    Language.append_mem_mul rfl (Language.append_mem_mul rfl Language.nil_mem_one)
  exact hmem

/-- What the parser leaves behind. -/
def parsed (fuel : ℕ) (e : Expression) : ℕ × Graph :=
  ((bare.parse fuel e 0 false false alone).toOption).getD (0, alone)

/-- `a b` inclusively or `c d`: with `c` between them, `a b` is no longer accepted.
The row of `b` joins in its last column only, and that of the null transition
after it is entered from nowhere else than the end of `a b`. -/
theorem interleaved_call_rejected :
    [called "a", called "c", called "b"] ∈
        inclusive (bare.language 2 (twoCalls "a" "b")) (bare.language 2 (twoCalls "c" "d")) ∧
      [called "a", called "c", called "b"] ∉
        bare.language 3 (.booleanExpr .or (twoCalls "a" "b") (twoCalls "c" "d")) := by
  constructor
  · refine ⟨[called "a", called "b"], [called "c"],
      .left _ (.right _ (.left _ .nil)), .inl ⟨twoCalls_mem "a" "b", ?_⟩⟩
    exact ⟨[called "d"], twoCalls_mem "c" "d"⟩
  · have hparse : bare.parse 3 (.booleanExpr .or (twoCalls "a" "b") (twoCalls "c" "d")) 0 false
      false alone = .ok (parsed 3 (.booleanExpr .or (twoCalls "a" "b") (twoCalls "c" "d"))) := rfl
    rw [language_of_parse hparse]
    intro hw
    have hend := Walk.table
      (S := fun i p => p ∈ (([[0, 1, 2], [4], [10], [13]] : List (List ℕ))[i]?).getD [])
      (i := 0) (by decide +kernel) (by decide) (by decide) hw
    revert hend
    decide +kernel

end Parser

end Tesla.Automata
