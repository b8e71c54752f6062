/-
# `Tesla.Automata.Linking` — when `NFA::Link` comes to an end

Sub-automata are parsed in place, so `Parse` goes on from a reference to the expression that it
stands for.  An expression that comes to itself in this way is parsed without end, unless a panic
stops `Parse` before it gets there.

    calls       the expressions that `Parse` is called on for an expression, in their order
    Closed      nothing below is undefined, and there is an end to it: `Parse` returns
    Visits      one of the calls, with nothing before it that panics

`Parse` ends if and only if no expression that is visited visits itself.

Assertions do not stop `Parse` here.
-/
import Mathlib.Data.Set.Finite.Lattice
import Mathlib.Data.Set.Finite.List
import Tesla.Automata.Link
import Tesla.Lib.Shallow

namespace Tesla.Automata

open Lib Relation

/-! ## The recursion of `Parse` -/

/-- How often a sequence is parsed. -/
def repetitions (minReps maxReps : Int) : Nat :=
  (Max.max minReps (if maxReps = infiniteRepetitions then 1 else maxReps)).toNat

/-- The expressions that `Parse` is called on. -/
def calls (D : AutomataMap) : Expression → List Expression
  | .booleanExpr _ lhs rhs => [lhs, rhs]
  | .sequence es minReps maxReps => if repetitions minReps maxReps = 0 then [] else es
  | .subAutomaton id => ((D id).map (·.expression)).toList
  | .nullExpr | .assertionSite _ | .function _ | .fieldAssign _ => []

/-- A reference to nothing. -/
def undefined? (D : AutomataMap) : Expression → Option Panic
  | .subAutomaton id =>
    if (D id).isNone then some (.message ("subautomaton '" ++ id.shortName ++ "' not defined"))
    else none
  | .booleanExpr .. | .sequence .. | .nullExpr | .assertionSite _ | .function _ | .fieldAssign _ =>
    none

/-- `Parse` without the automaton. -/
def outline (D : AutomataMap) : Nat → Expression → Except Panic Unit
  | 0, _ => .error .stuck
  | fuel + 1, e =>
    match undefined? D e with
    | some panic => .error panic
    | none => (calls D e).forM (outline D fuel)

/-- Has it come to an end, with a result or a panic? -/
def Ended {α : Type} (x : Except Panic α) : Prop := x ≠ .error .stuck

def forget {α : Type} (x : Except Panic α) : Except Panic Unit := x.map fun _ => ()

variable {D : AutomataMap} {e e' c : Expression} {cs pre post : List Expression} {fuel : Nat}
  {α β : Type} {x : Except Panic α} {r : Except Panic Unit}

theorem ended_forget : Ended (forget x) ↔ Ended x := by
  cases x with
  | ok a => exact iff_of_true nofun nofun
  | error p =>
    rw [Ended, Ended, forget, Except.map, ne_eq, ne_eq, Except.error.injEq, Except.error.injEq]

/-- What comes after does not depend on the result. -/
theorem forget_bind {f : α → Except Panic β} (h : ∀ a, forget (f a) = r) :
    forget (x >>= f) = forget x >>= fun _ => r := by
  cases x with
  | ok a => exact h a
  | error p => rfl

theorem forget_parseBody {parse : Operand} {f : Expression → Except Panic Unit}
    (h : ∀ e s g, forget (parse e s g) = f e) (es : List Expression) (s : Nat) (g : Graph) :
    forget (parseBody parse es s g) = es.forM f := by
  induction es generalizing s g with
  | nil => rfl
  | cons e es ih =>
    change forget (parse e s g >>= fun a => parseBody parse es a.1 a.2) = f e >>= fun _ => es.forM f
    rw [forget_bind fun a : Nat × Graph => ih a.1 a.2, h]

/-- The repetitions end as the first of them does. -/
theorem forget_parseRepetitions {body : Nat → Graph → Except Panic (Nat × Graph)}
    (h : ∀ s g, forget (body s g) = r) (min max : Int) (infiniteLoop : Bool) (final count i s : Nat)
    (g : Graph) : forget (parseRepetitions body min max infiniteLoop final count i s g) =
      if count = 0 then .ok () else r := by
  induction count generalizing i s g with
  | zero => rfl
  | succ count ih =>
    rw [parseRepetitions]
    dsimp only
    rw [forget_bind fun a => ih _ _ _, h, if_neg (Nat.succ_ne_zero count)]
    cases r with
    | ok u =>
      change (if count = 0 then Except.ok () else Except.ok u) = Except.ok u
      split <;> rfl
    | error p => rfl

theorem bind_ok_unit (r : Except Panic Unit) : (r >>= fun _ => .ok ()) = r := by
  cases r <;> rfl

theorem forget_parseBoolean {parse : Operand} {f : Expression → Except Panic Unit}
    (h : ∀ e s g, forget (parse e s g) = f e) (suppress : Bool) (operation : Operation)
    (lhs rhs : Expression) (s : Nat) (g : Graph) :
    forget (parseBoolean suppress parse operation lhs rhs s g) = f lhs >>= fun _ => f rhs := by
  rw [parseBoolean]
  refine (forget_bind (r := f rhs) fun a => ?_).trans (by rw [h])
  refine (forget_bind (r := .ok ()) fun b => ?_).trans (by rw [h, bind_ok_unit])
  cases operation <;> rfl

theorem forget_parseSequence {parse : Operand} {f : Expression → Except Panic Unit}
    (h : ∀ e s g, forget (parse e s g) = f e) (es : List Expression) (minReps maxReps : Int)
    (s : Nat) (g : Graph) : forget (parseSequence parse es minReps maxReps s g) =
      (if repetitions minReps maxReps = 0 then [] else es).forM f := by
  rw [parseSequence]
  dsimp only
  refine (forget_bind (r := .ok ()) fun _ => rfl).trans ?_
  rw [bind_ok_unit, forget_parseRepetitions fun s g => forget_parseBody h es s g]
  rw [← repetitions]
  split <;> rfl

theorem forget_parse (xorOnly : Bool) (a : AutomatonDescription) (D : AutomataMap) (fuel : Nat)
    (e : Expression) (s : Nat) (g : Graph) :
    forget ((NFA.linker xorOnly a D).parse fuel e s false false g) = outline D fuel e := by
  induction fuel generalizing e s g with
  | zero => rfl
  | succ fuel ih =>
    cases e with
    | booleanExpr operation lhs rhs =>
      have hleft : outline D (fuel + 1) (.booleanExpr operation lhs rhs) =
          outline D fuel lhs >>= fun _ => outline D fuel rhs >>= fun _ => .ok () := rfl
      rw [hleft, bind_ok_unit]
      exact forget_parseBoolean ih _ operation lhs rhs s g
    | sequence es minReps maxReps => exact forget_parseSequence ih es minReps maxReps s g
    | nullExpr => rfl
    | assertionSite site => rfl
    | function ev => rfl
    | fieldAssign assign => rfl
    | subAutomaton id =>
      rw [outline, undefined?, calls]
      cases hid : D id with
      | none =>
        have hparse : (NFA.linker xorOnly a D).parse (fuel + 1) (.subAutomaton id) s false false g =
            .error (.message ("subautomaton '" ++ id.shortName ++ "' not defined")) := by
          simp only [Parser.parse, NFA.linker, Option.bind_some, hid]
          rfl
        rw [hparse]
        rfl
      | some d =>
        have hparse : (NFA.linker xorOnly a D).parse (fuel + 1) (.subAutomaton id) s false false g =
            (NFA.linker xorOnly a D).parse fuel d.expression s false false g := by
          simp only [Parser.parse, NFA.linker, Option.bind_some, hid]
          rfl
        rw [hparse]
        change _ = outline D fuel d.expression >>= fun _ => .ok ()
        rw [bind_ok_unit]
        exact ih d.expression s g

/-! ## How far it goes -/

/-- All that is inlined is defined, down to the leaves. -/
inductive Closed (D : AutomataMap) : Expression → Prop
  | intro {e : Expression} : undefined? D e = none → (∀ c ∈ calls D e, Closed D c) → Closed D e

/-- `Parse` comes from an expression to another: nothing that it is called on before panics. -/
def Visits (D : AutomataMap) (e c : Expression) : Prop :=
  undefined? D e = none ∧ ∃ pre post, calls D e = pre ++ c :: post ∧ ∀ p ∈ pre, Closed D p

theorem forM_eq_ok {f : Expression → Except Panic Unit} : cs.forM f = .ok () ↔ ∀ c ∈ cs, f c = .ok () := by
  induction cs with
  | nil => exact iff_of_true rfl nofun
  | cons c cs ih =>
    change (f c >>= fun _ => cs.forM f) = .ok () ↔ _
    rw [List.forall_mem_cons, ← ih]
    cases f c with
    | ok u => exact (and_iff_right rfl).symm
    | error p => exact iff_of_false nofun (fun h => nomatch h.1)

/-- A loop comes to an end if each of its rounds does that comes after rounds that return. -/
theorem ended_forM {f : Expression → Except Panic Unit} : Ended (cs.forM f) ↔
    ∀ pre c post, cs = pre ++ c :: post → (∀ p ∈ pre, f p = .ok ()) → Ended (f c) := by
  induction cs with
  | nil =>
    refine iff_of_true nofun fun pre c post heq => ?_
    exact absurd heq.symm (List.append_ne_nil_of_right_ne_nil pre (List.cons_ne_nil c post))
  | cons c cs ih =>
    change Ended (f c >>= fun _ => cs.forM f) ↔ _
    cases hc : f c with
    | ok u =>
      change Ended (cs.forM f) ↔ _
      rw [ih]
      constructor
      · intro h pre c' post heq hpre
        cases pre with
        | nil =>
          obtain ⟨rfl, _⟩ := List.cons.inj heq
          rw [hc]
          exact nofun
        | cons p pre =>
          obtain ⟨rfl, htail⟩ := List.cons.inj heq
          exact h pre c' post htail (List.forall_mem_cons.mp hpre).2
      · intro h pre c' post heq hpre
        exact h (c :: pre) c' post (by rw [heq]; rfl) (List.forall_mem_cons.mpr ⟨hc, hpre⟩)
    | error panic =>
      change Ended (.error panic : Except Panic Unit) ↔ _
      constructor
      · intro h pre c' post heq hpre
        cases pre with
        | nil =>
          obtain ⟨rfl, _⟩ := List.cons.inj heq
          rwa [hc]
        | cons p pre =>
          obtain ⟨rfl, _⟩ := List.cons.inj heq
          have hok := hpre c List.mem_cons_self
          rw [hc] at hok
          cases hok
      · intro h
        have hend := h [] c cs rfl nofun
        rwa [hc] at hend

theorem ended_of_undefined {panic : Panic} (h : undefined? D e = some panic) : panic ≠ .stuck := by
  cases e with
  | subAutomaton id =>
    rw [undefined?] at h
    split at h
    · cases h
      exact nofun
    · cases h
  | booleanExpr | sequence | nullExpr | assertionSite | function | fieldAssign => cases h

theorem Visits.mem (h : Visits D e c) : c ∈ calls D e := by
  obtain ⟨_, pre, post, heq, _⟩ := h
  rw [heq]
  exact List.mem_append_right _ List.mem_cons_self

theorem Closed.visits (h : Closed D e) (hc : c ∈ calls D e) : Visits D e c := by
  obtain ⟨hdefined, hcalls⟩ := h
  obtain ⟨pre, post, heq⟩ := List.append_of_mem hc
  refine ⟨hdefined, pre, post, heq, fun p hp => hcalls p ?_⟩
  rw [heq]
  exact List.mem_append_left _ hp

/-- With so much fuel `Parse` comes to an end if what it visits is no deeper, and returns if also
nothing is undefined. -/
theorem outline_spec (D : AutomataMap) (fuel : Nat) (e : Expression) :
    (outline D fuel e = .ok () ↔ Closed D e ∧ Shallow (Visits D) fuel e) ∧
      (Ended (outline D fuel e) ↔ Shallow (Visits D) fuel e) := by
  induction fuel generalizing e with
  | zero => exact ⟨iff_of_false nofun fun h => h.2, iff_of_false (fun h => h rfl) id⟩
  | succ fuel ih =>
    rw [outline]
    cases hdefined : undefined? D e with
    | some panic =>
      have hleaf : Shallow (Visits D) (fuel + 1) e := by
        rintro c ⟨hnone, _⟩
        rw [hdefined] at hnone
        cases hnone
      refine ⟨iff_of_false nofun ?_, iff_of_true ?_ hleaf⟩
      · rintro ⟨⟨hnone, _⟩, _⟩
        rw [hdefined] at hnone
        cases hnone
      · intro hstuck
        exact ended_of_undefined hdefined (Except.error.inj hstuck)
    | none =>
      constructor
      · rw [forM_eq_ok]
        constructor
        · intro h
          refine ⟨.intro hdefined fun c hc => ((ih c).1.mp (h c hc)).1, fun c hc => ?_⟩
          exact ((ih c).1.mp (h c hc.mem)).2
        · rintro ⟨hclosed, hshallow⟩ c hc
          have hcalls : ∀ c ∈ calls D e, Closed D c := by
            obtain ⟨_, hcalls⟩ := hclosed
            exact hcalls
          exact (ih c).1.mpr ⟨hcalls c hc, hshallow c (hclosed.visits hc)⟩
      · rw [ended_forM]
        constructor
        · intro h c ⟨_, pre, post, heq, hclosed⟩
          -- the calls before are closed, and they end in turn
          have hbefore (l : List Expression) :
              ∀ r, calls D e = l ++ r → (∀ p ∈ l, Closed D p) → ∀ p ∈ l, outline D fuel p = .ok () := by
            induction l using List.reverseRecOn with
            | nil => exact fun _ _ _ => nofun
            | append_singleton l p ihl =>
              intro r heq hclosed
              rw [List.forall_mem_append, List.forall_mem_singleton] at hclosed ⊢
              rw [List.append_assoc, List.singleton_append] at heq
              have hl := ihl _ heq hclosed.1
              exact ⟨hl, (ih p).1.mpr ⟨hclosed.2, (ih p).2.mp (h l p r heq hl)⟩⟩
          exact (ih c).2.mp (h pre c post heq (hbefore pre _ heq hclosed))
        · intro h pre c post heq hpre
          exact (ih c).2.mpr (h c ⟨hdefined, pre, post, heq, fun p hp => ((ih p).1.mp (hpre p hp)).1⟩)

/-! ## Finitely many expressions -/

mutual

/-- An expression and all that it is made of. -/
def Expression.parts : Expression → List Expression
  | .booleanExpr operation lhs rhs => .booleanExpr operation lhs rhs :: (lhs.parts ++ rhs.parts)
  | .sequence es minReps maxReps => .sequence es minReps maxReps :: partsAll es
  | .nullExpr => [.nullExpr]
  | .assertionSite site => [.assertionSite site]
  | .function ev => [.function ev]
  | .fieldAssign assign => [.fieldAssign assign]
  | .subAutomaton id => [.subAutomaton id]
termination_by structural e => e

def partsAll : List Expression → List Expression
  | [] => []
  | e :: es => e.parts ++ partsAll es
termination_by structural es => es

end

/-- What an expression is made of. -/
def Expression.operands : Expression → List Expression
  | .booleanExpr _ lhs rhs => [lhs, rhs]
  | .sequence es _ _ => es
  | .nullExpr | .assertionSite _ | .function _ | .fieldAssign _ | .subAutomaton _ => []

theorem Expression.mem_parts (e : Expression) : e ∈ e.parts := by
  cases e <;> exact List.mem_cons_self

theorem mem_partsAll {es : List Expression} (he : e ∈ es) : e ∈ partsAll es := by
  induction es with
  | nil => cases he
  | cons e' es ih =>
    rw [partsAll, List.mem_append]
    rcases List.mem_cons.mp he with rfl | he
    · exact .inl e.mem_parts
    · exact .inr (ih he)

mutual

theorem Expression.operands_parts (e x : Expression) (hx : x ∈ e.parts) (hc : c ∈ x.operands) :
    c ∈ e.parts := by
  cases e with
  | booleanExpr operation lhs rhs =>
    rw [Expression.parts, List.mem_cons, List.mem_append] at hx ⊢
    rcases hx with rfl | hx | hx
    · rcases List.mem_pair.mp hc with rfl | rfl
      · exact .inr (.inl c.mem_parts)
      · exact .inr (.inr c.mem_parts)
    · exact .inr (.inl (Expression.operands_parts lhs x hx hc))
    · exact .inr (.inr (Expression.operands_parts rhs x hx hc))
  | sequence es minReps maxReps =>
    rw [Expression.parts, List.mem_cons] at hx ⊢
    rcases hx with rfl | hx
    · exact .inr (mem_partsAll hc)
    · exact .inr (operands_partsAll es x hx hc)
  | nullExpr | assertionSite | function | fieldAssign | subAutomaton =>
    obtain rfl := List.mem_singleton.mp hx
    cases hc

theorem operands_partsAll (es : List Expression) (x : Expression) (hx : x ∈ partsAll es)
    (hc : c ∈ x.operands) : c ∈ partsAll es := by
  cases es with
  | nil => cases hx
  | cons e es =>
    rw [partsAll, List.mem_append] at hx ⊢
    rcases hx with hx | hx
    · exact .inl (Expression.operands_parts e x hx hc)
    · exact .inr (operands_partsAll es x hx hc)

end

/-- The parts of an expression and of all definitions. -/
def reach (D : AutomataMap) (e : Expression) : Set Expression :=
  {x | x ∈ e.parts} ∪ ⋃ id ∈ {id | (D id).isSome}, {x | ∃ d ∈ D id, x ∈ d.expression.parts}

theorem reach_finite (hD : {id | (D id).isSome}.Finite) (e : Expression) : (reach D e).Finite := by
  refine (List.finite_toSet e.parts).union (hD.biUnion fun id _ => ?_)
  cases hid : D id with
  | none => simp
  | some d =>
    refine (List.finite_toSet d.expression.parts).subset ?_
    rintro x ⟨d', hd', hx⟩
    cases hd'
    exact hx

theorem reach_closed (e : Expression) {x : Expression} (hx : x ∈ reach D e) (hc : Visits D x c) :
    c ∈ reach D e := by
  have hcalls : c ∈ x.operands ∨ ∃ id d, D id = some d ∧ c = d.expression := by
    have hmem := hc.mem
    cases x with
    | booleanExpr operation lhs rhs => exact .inl hmem
    | sequence es minReps maxReps =>
      rw [calls] at hmem
      split at hmem
      · cases hmem
      · exact .inl hmem
    | subAutomaton id =>
      obtain ⟨d, hd, rfl⟩ := Option.map_eq_some_iff.mp (Option.mem_toList.mp hmem)
      exact .inr ⟨id, d, hd, rfl⟩
    | nullExpr | assertionSite | function | fieldAssign => cases hmem
  rcases hcalls with hoperand | ⟨id, d, hd, rfl⟩
  · rcases hx with hx | hx
    · exact .inl (Expression.operands_parts e x hx hoperand)
    · obtain ⟨id, hid, d, hd, hx⟩ := Set.mem_iUnion₂.mp hx
      exact .inr (Set.mem_iUnion₂.mpr ⟨id, hid, d, hd, Expression.operands_parts d.expression x hx hoperand⟩)
  · have hsome : (D id).isSome := by rw [hd]; rfl
    exact .inr (Set.mem_iUnion₂.mpr ⟨id, hsome, d, hd, d.expression.mem_parts⟩)

/-! ## `Link` -/

/-- The expression where `Usage` says that the automaton begins is not an event. -/
def BadBeginning (use : Option Usage) : Prop := ∃ b ∈ use.bind (·.beginning), b.event = none

/-- As a bound an event is parsed, and anything else is a panic. -/
theorem parse_asBound (P : Parser) (fuel : Nat) (e : Expression) (s : Nat) {init cleanup : Bool}
    (g : Graph) (hbound : (init || cleanup) = true) :
    (∃ r, e.event ≠ none ∧ P.parse (fuel + 1) e s init cleanup g = .ok r) ∨
      ∃ text, e.event = none ∧ P.parse (fuel + 1) e s init cleanup g = .error (.message text) := by
  cases e with
  | assertionSite | function | fieldAssign => exact .inl ⟨_, nofun, rfl⟩
  | booleanExpr | sequence | nullExpr | subAutomaton =>
    obtain ⟨text, htext⟩ := bounds_panic _ hbound
    refine .inr ⟨text, rfl, ?_⟩
    rw [Parser.parse, htext]
    rfl

theorem ended_ok (a : α) : Ended (.ok a) := nofun

theorem ended_bind {f : α → Except Panic β} (h : ∀ a, Ended (f a)) : Ended (x >>= f) ↔ Ended x := by
  cases x with
  | ok a => exact iff_of_true (h a) (ended_ok a)
  | error panic =>
    change Ended (.error panic : Except Panic β) ↔ _
    rw [Ended, Ended, ne_eq, ne_eq, Except.error.injEq, Except.error.injEq]

/-- What `NFAParser::Parse` does after the entry point. -/
def parseRest (P : Parser) (fuel : Nat) (use : Option Usage) (r : Nat × Graph) :
    Except Panic Graph :=
  P.parse fuel P.automaton.expression r.1 false false r.2 >>= fun q =>
    (match use.bind (·.ending) with
      | some e => P.parse fuel e q.1 false true q.2
      | none => pure q) >>= fun q => pure (Parser.addOutOfScope r.1 q.1 q.2)

theorem parseAutomaton_eq (P : Parser) (fuel : Nat) (use : Option Usage) :
    P.parseAutomaton fuel use =
      let start := Graph.empty.newState true false [] (some P.automaton.argument.length)
      (match use.bind (·.beginning) with
        | some e => P.parse fuel e start.1 true false start.2
        | none => pure start) >>= parseRest P fuel use := by
  rw [Parser.parseAutomaton]
  unfold parseRest
  cases use.bind (·.beginning) <;> cases use.bind (·.ending) <;> rfl

/-- The cleanup is a bound. -/
theorem ended_ending (P : Parser) (fuel : Nat) (use : Option Usage) (r : Nat × Graph) :
    Ended (match use.bind (·.ending) with
      | some e => P.parse (fuel + 1) e r.1 false true r.2
      | none => pure r) := by
  cases use.bind (·.ending) with
  | none => exact nofun
  | some e =>
    dsimp only
    rcases parse_asBound P fuel e r.1 r.2 (rfl : (false || true) = true) with
      ⟨_, _, hparse⟩ | ⟨_, _, hparse⟩
    · rw [hparse]
      exact nofun
    · rw [hparse]
      exact nofun

theorem ended_parseRest (xorOnly : Bool) (a : AutomatonDescription) (use : Option Usage)
    (D : AutomataMap) (fuel : Nat) (r : Nat × Graph) :
    Ended (parseRest (NFA.linker xorOnly a D) (fuel + 1) use r) ↔
      Ended (outline D (fuel + 1) a.expression) := by
  rw [parseRest, ended_bind, ← forget_parse xorOnly a D (fuel + 1) a.expression r.1 r.2,
    ended_forget]
  · rfl
  · intro q
    exact (ended_bind fun _ => ended_ok _).mpr (ended_ending _ fuel use q)

theorem link_ended_iff (xorOnly : Bool) (a : AutomatonDescription) (use : Option Usage)
    (D : AutomataMap) (fuel : Nat) : Ended (NFA.link xorOnly a use D (fuel + 1)) ↔
      BadBeginning use ∨ Ended (outline D (fuel + 1) a.expression) := by
  rw [NFA.link, parseAutomaton_eq]
  cases hbeginning : use.bind (·.beginning) with
  | none =>
    have hgood : ¬ BadBeginning use := by
      rintro ⟨b, hb, _⟩
      rw [hbeginning] at hb
      cases hb
    rw [or_iff_right hgood]
    exact ended_parseRest xorOnly a use D fuel _
  | some b =>
    have hbad : BadBeginning use ↔ b.event = none := by
      rw [BadBeginning, hbeginning]
      constructor
      · rintro ⟨_, hb, hevent⟩
        exact Option.some.inj hb ▸ hevent
      · intro hevent
        exact ⟨b, rfl, hevent⟩
    dsimp only
    rcases parse_asBound (NFA.linker xorOnly a D) fuel b _ _ (rfl : (true || false) = true) with
      ⟨r, hevent, hparse⟩ | ⟨text, hevent, hparse⟩
    · rw [hparse, or_iff_right (mt hbad.mp hevent)]
      exact ended_parseRest xorOnly a use D fuel r
    · have hended : Ended (.error (.message text) : Except Panic Graph) := by
        intro hstuck
        cases hstuck
      rw [hparse]
      exact iff_of_true hended (.inl (hbad.mpr hevent))

theorem link_zero (xorOnly : Bool) (a : AutomatonDescription) (use : Option Usage)
    (D : AutomataMap) : NFA.link xorOnly a use D 0 = .error .stuck := by
  rw [NFA.link, parseAutomaton_eq]
  cases use.bind (·.beginning) <;> rfl

/-- `Link` comes to an end if and only if no expression that it visits visits itself, or the
automaton does not begin with an event, which is a panic before anything is visited. -/
theorem link_ends_iff (xorOnly : Bool) (a : AutomatonDescription) (use : Option Usage)
    (D : AutomataMap) (hD : {id | (D id).isSome}.Finite) :
    (∃ fuel, NFA.link xorOnly a use D fuel ≠ .error .stuck) ↔
      BadBeginning use ∨
        ∀ e, ReflTransGen (Visits D) a.expression e → ¬ TransGen (Visits D) e e := by
  constructor
  · rintro ⟨fuel, hfuel⟩
    cases fuel with
    | zero => exact absurd (link_zero xorOnly a use D) hfuel
    | succ fuel =>
      refine ((link_ended_iff xorOnly a use D fuel).mp hfuel).imp_right fun hended e he => ?_
      have hshallow := (outline_spec D (fuel + 1) a.expression).2.mp hended
      exact (hshallow.of_reflTransGen he).not_cycle
  · rintro (hbad | hacyclic)
    · exact ⟨1, (link_ended_iff xorOnly a use D 0).mpr (.inl hbad)⟩
    · obtain ⟨fuel, hshallow⟩ := shallow_of_finite (reach_finite hD a.expression)
        (fun x hx c hc => reach_closed a.expression hx hc) (.inl a.expression.mem_parts) hacyclic
      refine ⟨fuel + 1, (link_ended_iff xorOnly a use D fuel).mpr (.inr ?_)⟩
      exact (outline_spec D (fuel + 1) a.expression).2.mpr (hshallow.mono (Nat.le_succ fuel))

/-- A call of `x`, and then the same again. -/
def retry : AutomatonDescription :=
  ⟨⟨some "retry", none⟩, .global,
    .sequence [.function (Parser.callTo "x"), .subAutomaton ⟨some "retry", none⟩] 1 1, []⟩

/-- A manifest with one description. -/
def only (a : AutomatonDescription) : AutomataMap := fun id =>
  if id = a.identifier then some a else none

theorem only_finite (a : AutomatonDescription) : {id | (only a id).isSome}.Finite := by
  refine (Set.finite_singleton a.identifier).subset fun id hid => ?_
  by_contra hne
  have hnone : only a id = none := if_neg hne
  have hsome : (only a id).isSome := hid
  rw [hnone] at hsome
  cases hsome

theorem link_ends_iff_once :
    {id | (only optionalLoop id).isSome}.Finite ∧
      ((∃ fuel, NFA.link false { retry with expression := .subAutomaton optionalLoop.identifier }
          (some withinCall) (only optionalLoop) fuel ≠ .error .stuck) ↔
        BadBeginning (some withinCall) ∨
          ∀ e, ReflTransGen (Visits (only optionalLoop)) (.subAutomaton optionalLoop.identifier) e →
            ¬ TransGen (Visits (only optionalLoop)) e e) :=
  ⟨only_finite _, link_ends_iff false { retry with expression := _ } _ _ (only_finite _)⟩

/-- The description of `retry` is never parsed to its end. -/
theorem link_endless :
    {id | (only retry id).isSome}.Finite ∧ only retry retry.identifier = some retry ∧
      ∀ fuel, NFA.link false retry (some withinCall) (only retry) fuel = .error .stuck := by
  refine ⟨only_finite retry, rfl, fun fuel => ?_⟩
  let inner : Expression := .subAutomaton retry.identifier
  have hcall : Closed (only retry) (.function (Parser.callTo "x")) := .intro rfl nofun
  have hdown : Visits (only retry) retry.expression inner :=
    ⟨rfl, [.function (Parser.callTo "x")], [], rfl, List.forall_mem_singleton.mpr hcall⟩
  have hback : Visits (only retry) inner retry.expression := ⟨rfl, [], [], rfl, nofun⟩
  have hgood : ¬ BadBeginning (some withinCall) := by
    rintro ⟨b, hb, hevent⟩
    cases hb
    cases hevent
  by_contra hended
  cases fuel with
  | zero => exact hended (link_zero false retry _ _)
  | succ fuel =>
    have houtline := ((link_ended_iff false retry _ _ fuel).mp hended).resolve_left hgood
    exact ((outline_spec _ _ _).2.mp houtline).not_cycle (.tail (.single hdown) hback)

end Tesla.Automata
