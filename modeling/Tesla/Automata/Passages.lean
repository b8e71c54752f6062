/-
# `Tesla.Automata.Passages` — when no assertion fails

How the references of the states come about, read off the expression.  A `Passage` says
of the parse of an expression, from a state with given references:

    idle      it stays in that state
    back      some transition leads back to that state
    lenient   some event is not strict, and can be seen out of scope
    refs      the references of the state it ends in
    sound     no state is entered with references that it does not admit

The operands of a boolean expression are parsed before they are connected, from states
without references: there nothing is ever bound, and nothing ever fails.  What fails is
the connection, where variables are bound and an operand has come back to its start, or
where only the right operand is idle.
-/
import Tesla.Automata.References
import Tesla.Automata.Bounds

namespace Tesla.Automata

open Lib Relation

/-! ## Passages -/

/-- An event that is seen out of scope too. -/
def Label.lenient : Label → Bool
  | .fn ev => !(ev.strict.getD true)
  | .fieldAssign assign => !(assign.strict.getD true)
  | .null | .assertSite .. | .subAutomaton _ => false

structure Passage where
  idle : Bool
  back : Bool
  lenient : Bool
  refs : References
  sound : Bool

namespace Passage

def null (R : References) : Passage := ⟨true, false, false, R, true⟩

def event (l : Label) (R : References) : Passage :=
  ⟨false, false, l.lenient, referencesThusFar l R, R.length < 32⟩

/-- One after the other. -/
def after (x : Passage) (y : References → Passage) : Passage :=
  ⟨x.idle && (y x.refs).idle, x.back || x.idle && (y x.refs).back,
    x.lenient || (y x.refs).lenient, (y x.refs).refs, x.sound && (y x.refs).sound⟩

def body (ys : List (References → Passage)) : References → Passage :=
  ys.foldr (fun y z R => (y R).after z) null

/-- A boolean expression with these operands. -/
def fork (x y : Passage) (R : References) : Passage :=
  ⟨false, false, x.lenient || y.lenient, if x.idle then R else [],
    R.length < 32 && (R.blank || !x.back && !y.back && (x.idle || !y.idle))⟩

/-- The repetitions from the `i`-th on, `count` of them, where `known` are the references
of the final state so far. -/
def rounds (y : References → Passage) (skipped looped : ℕ → Bool) :
    ℕ → ℕ → Option References → References → Passage
  | 0, _, known, R => ⟨false, false, false, known.getD R, References.enters known R⟩
  | count + 1, i, known, R =>
    let x := y R
    let z := rounds y skipped looped count (i + 1)
      (if skipped i then some (known.getD R) else known) x.refs
    ⟨false, x.back || looped i || x.idle && z.back, x.lenient || z.lenient, z.refs,
      (!skipped i || References.enters known R) && x.sound && (!looped i || R.admits x.refs) &&
        z.sound⟩

def repeated (y : References → Passage) (minReps maxReps : Int) (R : References) : Passage :=
  let infiniteLoop := maxReps = infiniteRepetitions
  let max := if infiniteLoop then 1 else maxReps
  rounds y (fun i => minReps ≤ i) (fun i => infiniteLoop || max < i) (Max.max minReps max).toNat 0
    none R

end Passage

/-- The parse of an expression from a state with references `R`. -/
def Parser.passage (P : Parser) : ℕ → Expression → References → Passage
  | 0, _, R => .null R
  | fuel + 1, e, R =>
    match e with
    | .nullExpr => .null R
    | .booleanExpr _ lhs rhs => .fork (P.passage fuel lhs []) (P.passage fuel rhs []) R
    | .sequence es minReps maxReps => .repeated (.body (es.map (P.passage fuel))) minReps maxReps R
    | .assertionSite site => .event (.assertSite site P.siteRefs) R
    | .function ev => .event (.fn ev) R
    | .fieldAssign assign => .event (.fieldAssign assign) R
    | .subAutomaton id =>
      if P.subAutomataAllowed then .event (.subAutomaton id) R
      else ((P.descriptions.bind (· id)).map fun a => P.passage fuel a.expression R).getD (.null R)

/-! ## Without references nothing is bound -/

theorem Passage.body_refs_nil {ys : List (References → Passage)} (h : ∀ y ∈ ys, (y []).refs = []) :
    (body ys []).refs = [] := by
  induction ys with
  | nil => rfl
  | cons y ys ih =>
    rw [List.forall_mem_cons] at h
    show (body ys (y []).refs).refs = []
    rw [h.1]
    exact ih h.2

theorem Passage.rounds_idle (y : References → Passage) (skipped looped : ℕ → Bool) (count i : ℕ)
    (known : Option References) (R : References) :
    (rounds y skipped looped count i known R).idle = false := by
  cases count <;> rfl

theorem Passage.rounds_refs_nil {y : References → Passage} (h : (y []).refs = [])
    (skipped looped : ℕ → Bool) (count i : ℕ) {known : Option References}
    (hknown : known.getD [] = []) : (rounds y skipped looped count i known []).refs = [] := by
  induction count generalizing i known with
  | zero => exact hknown
  | succ count ih =>
    simp only [rounds, h, hknown]
    refine ih (i + 1) ?_
    split
    · rfl
    · exact hknown

theorem Parser.passage_refs_nil (P : Parser) (fuel : ℕ) (e : Expression) :
    (P.passage fuel e []).refs = [] := by
  induction fuel generalizing e with
  | zero => rfl
  | succ fuel ih =>
    cases e with
    | nullExpr | assertionSite | function | fieldAssign => rfl
    | booleanExpr operation lhs rhs => exact ite_self _
    | sequence es minReps maxReps =>
      refine Passage.rounds_refs_nil (Passage.body_refs_nil ?_) _ _ _ 0 rfl
      intro y hy
      obtain ⟨e, _, rfl⟩ := List.mem_map.mp hy
      exact ih e
    | subAutomaton id =>
      simp only [passage]
      split
      · rfl
      · cases P.descriptions.bind (· id) with
        | none => rfl
        | some a => exact ih a.expression

/-! ## What a parse does -/

variable {P : Parser} {fuel : ℕ} {e : Expression} {s f c p q y final : ℕ} {L : Label → Prop}
  {l : Label} {g g' g₁ g₂ : Graph} {x z : Passage} {b : Bool} {t : Transition}
  {ts ts' : List Transition}

/-- Events that are seen out of scope are among the transitions. -/
def Lenient (ts : List Transition) : Prop := ∃ t ∈ ts, t.label.lenient = true

theorem lenient_append : Lenient (ts ++ ts') ↔ Lenient ts ∨ Lenient ts' := by
  simp only [Lenient, List.mem_append, or_and_right, exists_or]

theorem not_lenient_nil : ¬ Lenient [] := fun ⟨_, ht, _⟩ => absurd ht List.not_mem_nil

structure Passes (s : ℕ) (x : Passage) (g : Graph) (f : ℕ) (g' : Graph) : Prop where
  failed : g'.failed = [] ↔ g.failed = [] ∧ x.sound = true ∧ (x.back = true → s ≠ 0)
  idle : x.idle = true → f = s ∧ g' = g
  moved : x.idle = false → g.states.length ≤ f ∧ g'.refsAt f ≠ none
  refs : g'.refsFrom f = x.refs
  start : g'.refsAt s = if x.back then some (g.refsFrom s) else g.refsAt s
  others : ∀ y < g.states.length, y ≠ s → g'.refsAt y = g.refsAt y
  le : g.states.length ≤ g'.states.length
  laid : ∃ ts, g'.transitions = g.transitions ++ ts ∧ (x.lenient = true ↔ Lenient ts)

namespace Passes

theorem null (s : ℕ) (g : Graph) : Passes s (.null (g.refsFrom s)) g s g := by
  refine ⟨by simp [Passage.null], fun _ => ⟨rfl, rfl⟩, fun h => (by cases h), rfl, rfl,
    fun _ _ _ => rfl, le_rfl, [], (List.append_nil _).symm, ?_⟩
  exact iff_of_false Bool.false_ne_true not_lenient_nil

/-- Whoever knows references keeps them. -/
theorem known (h : Passes s x g f g') (hy : y < g.states.length) (hrefs : g.refsAt y ≠ none) :
    g'.refsAt y ≠ none := by
  by_cases hys : y = s
  · rw [hys, h.start]
    split
    · exact Option.some_ne_none _
    · exact hys ▸ hrefs
  · rw [h.others y hy hys]
    exact hrefs

theorem final_known (h : Passes s x g f g') (hrefs : g.refsAt s ≠ none) : g'.refsAt f ≠ none := by
  cases hidle : x.idle with
  | true =>
    obtain ⟨rfl, rfl⟩ := h.idle hidle
    exact hrefs
  | false => exact (h.moved hidle).2

theorem final_ne_zero (h : Passes s x g f g') (hlen : 0 < g.states.length)
    (hs : x.idle = true → s ≠ 0) : f ≠ 0 := by
  cases hidle : x.idle with
  | true => exact (h.idle hidle).1 ▸ hs hidle
  | false =>
    have := (h.moved hidle).1
    omega

theorem after {Y : References → Passage} (hs : s < g.states.length) (h : Passes s x g c g₁)
    (h' : Passes c (Y (g₁.refsFrom c)) g₁ f g') : Passes s (x.after Y) g f g' := by
  obtain ⟨ts, htrans, hts⟩ := h.laid
  obtain ⟨ts', htrans', hts'⟩ := h'.laid
  have hle := h.le
  rw [h.refs] at h' hts'
  have hlaid : ∃ us, g'.transitions = g.transitions ++ us ∧
      ((x.after Y).lenient = true ↔ Lenient us) := by
    refine ⟨ts ++ ts', by rw [htrans', htrans, List.append_assoc], ?_⟩
    rw [Passage.after, Bool.or_eq_true, lenient_append, hts, hts']
  cases hidle : x.idle with
  | true =>
    obtain ⟨rfl, rfl⟩ := h.idle hidle
    refine ⟨?_, ?_, ?_, h'.refs, ?_, h'.others, hle.trans h'.le, hlaid⟩
    · rw [h'.failed, h.failed]
      simp only [Passage.after, hidle, Bool.true_and, Bool.and_eq_true, Bool.or_eq_true]
      constructor
      · rintro ⟨⟨hfailed, hx, hback⟩, hy, hback'⟩
        exact ⟨⟨hfailed, hx, hback⟩, ⟨hx, hy⟩, fun hor => hor.elim hback hback'⟩
      · rintro ⟨hg, ⟨_, hy⟩, hback⟩
        exact ⟨hg, hy, fun hY => hback (.inr hY)⟩
    · intro hi
      simp only [Passage.after, hidle, Bool.true_and] at hi
      exact h'.idle hi
    · intro hi
      simp only [Passage.after, hidle, Bool.true_and] at hi
      exact h'.moved hi
    · rw [h'.start]
      simp only [Passage.after, hidle, Bool.true_and]
      cases hback : x.back with
      | false => rw [Bool.false_or]
      | true =>
        have hstart := h.start
        rw [hback, if_pos rfl] at hstart
        rw [← hstart, ite_self, ite_self]
  | false =>
    obtain ⟨hc, hrefs⟩ := h.moved hidle
    have hcs : c ≠ s := by omega
    refine ⟨?_, ?_, ?_, h'.refs, ?_, ?_, hle.trans h'.le, hlaid⟩
    · rw [h'.failed, h.failed]
      simp only [Passage.after, hidle, Bool.false_and, Bool.or_false, Bool.and_eq_true]
      have hc0 : c ≠ 0 := by omega
      constructor
      · rintro ⟨⟨hfailed, hx, hback⟩, hy, _⟩
        exact ⟨hfailed, ⟨hx, hy⟩, hback⟩
      · rintro ⟨hfailed, ⟨hx, hy⟩, hback⟩
        exact ⟨⟨hfailed, hx, hback⟩, hy, fun _ => hc0⟩
    · intro hi
      simp only [Passage.after, hidle, Bool.false_and, Bool.false_eq_true] at hi
    · intro _
      cases hz : (Y x.refs).idle with
      | true =>
        obtain ⟨rfl, rfl⟩ := h'.idle hz
        exact ⟨hc, hrefs⟩
      | false =>
        obtain ⟨hf, hrefs'⟩ := h'.moved hz
        exact ⟨hle.trans hf, hrefs'⟩
    · rw [h'.others s (hs.trans_le hle) hcs.symm, h.start]
      simp only [Passage.after, hidle, Bool.false_and, Bool.or_false]
    · intro y hy hys
      rw [h'.others y (hy.trans_le hle) (by omega), h.others y hy hys]

/-- An event, perhaps one that initialises or cleans up. -/
theorem event (hs : s < g.states.length) (hg : g.Tracked) (l : Label) (init cleanup : Bool) :
    Passes s (.event l (g.refsFrom s)) g g.states.length (parseEvent l s init cleanup g).2 := by
  have hlen := Graph.newState_length (g := g) false cleanup [] none
  have hat : ∀ y, (g.newState false cleanup [] none).2.refsAt y = g.refsAt y :=
    g.refsAt_newState false cleanup []
  have hfrom : (g.newState false cleanup [] none).2.refsFrom s = g.refsFrom s := by
    rw [Graph.refsFrom, hat, Graph.refsFrom]
  have hnew : (g.newState false cleanup [] none).2.refsAt g.states.length = none := by
    rw [hat, Graph.refsAt_eq_none le_rfl]
  have hfailed : (g.newState false cleanup [] none).2.failed = g.failed := rfl
  have heq : (parseEvent l s init cleanup g).2 = (g.newState false cleanup [] none).2.register
      ⟨s, g.states.length, l, init, cleanup, false⟩ := rfl
  generalize (g.newState false cleanup [] none).2 = g₁ at *
  generalize ht : (⟨s, g.states.length, l, init, cleanup, false⟩ : Transition) = t at *
  obtain ⟨hsource, hdest, hlabel, hscope⟩ :
      t.source = s ∧ t.dest = g.states.length ∧ t.label = l ∧ t.outOfScope = false := by
    rw [← ht]
    exact ⟨rfl, rfl, rfl, rfl⟩
  have hlt : t.dest < g₁.states.length := by omega
  have hrefs := Graph.refsAt_register hlt
  rw [hsource, hdest, hlabel, hfrom, hnew, Option.getD_none] at hrefs
  have h0 : g.states.length ≠ 0 := by omega
  obtain ⟨-, hlen', htrans, -⟩ := parseEvent_spec (s := s) l init cleanup g
  refine ⟨?_, fun h => (by cases h), fun _ => ⟨le_rfl, ?_⟩, ?_, ?_, ?_, by omega, [t], ?_, ?_⟩
  · rw [heq, Graph.register_failed hlt hscope (by rw [hsource, hfrom]; exact hg.refsFrom_indexed s),
      hfailed, hsource, hdest, hlabel, hfrom, hnew]
    simp [Passage.event, References.enters, referencesThusFar_length, h0]
  · rw [heq, hrefs, if_pos rfl]
    exact Option.some_ne_none _
  · rw [heq, Graph.refsFrom, hrefs, if_pos rfl]
    rfl
  · rw [heq, hrefs, if_neg hs.ne, hat]
    rfl
  · intro y hy _
    rw [heq, hrefs, if_neg hy.ne, hat]
  · rw [htrans, ht]
  · simp [Lenient, Passage.event, hlabel]

end Passes

/-- What the parser does with an operand is the passage of it. -/
def Operand.Passing (parse : Operand) (Y : Expression → References → Passage) : Prop :=
  ∀ e s g f g', s < g.states.length → g.Tracked → parse e s g = .ok (f, g') →
    Passes s (Y e (g.refsFrom s)) g f g'

section Functions

variable {parse : Operand} {E : Expression → Label → Prop} {Y : Expression → References → Passage}

theorem parseBody_passes (hp : parse.Stepwise E) (hy : parse.Passing Y) {es : List Expression}
    (hs : s < g.states.length) (hg : g.Tracked) (h : parseBody parse es s g = .ok (f, g')) :
    Passes s (Passage.body (es.map Y) (g.refsFrom s)) g f g' := by
  induction es generalizing s g with
  | nil =>
    obtain ⟨rfl, rfl⟩ := Prod.mk.inj (Except.ok.inj h)
    exact .null s g
  | cons e es ih =>
    obtain ⟨⟨c, g₁⟩, h₁, h⟩ := bind_eq_ok.mp h
    have hled := hp e s g c g₁ hs hg.sources h₁
    have hsource : ∀ x ∈ ({s} : Set ℕ), x < g.states.length := by
      rintro x rfl
      exact hs
    have hrest := ih (hled.final_lt hs) (hled.steps.tracked hsource hsource hg) h
    exact (hy e s g c g₁ hs hg h₁).after hs hrest

/-! ## Repetitions -/

section NullIf

variable (hq : q < g.states.length)
include hq

theorem Graph.refsAt_createNullIf (b : Bool) (p y : ℕ) :
    (if b then g.createNull p q else g).refsAt y =
      if b = true ∧ y = q then some ((g.refsAt q).getD (g.refsFrom p)) else g.refsAt y := by
  cases b with
  | false => rfl
  | true => simpa using refsAt_createNull hq p y

theorem Graph.refsFrom_createNullIf (b : Bool) (p : ℕ) :
    (if b then g.createNull p q else g).refsFrom p = g.refsFrom p := by
  rw [refsFrom, refsAt_createNullIf hq]
  split
  · next h => rw [h.2, Option.getD_some, refsFrom]; cases g.refsAt q <;> rfl
  · rfl

theorem Graph.createNullIf_failed (b : Bool) (hp : (g.refsFrom p).Indexed) :
    (if b then g.createNull p q else g).failed = [] ↔ g.failed = [] ∧
      (b = true → q ≠ 0 ∧ References.enters (g.refsAt q) (g.refsFrom p) = true) := by
  cases b with
  | false => simp
  | true => simpa using createNull_failed hq hp

end NullIf

/-- What the loop over repetitions does, with the references of the final state. -/
structure Rounds (s final : ℕ) (z : Passage) (g g' : Graph) : Prop where
  failed : g'.failed = [] ↔ g.failed = [] ∧ z.sound = true ∧ (z.back = true → s ≠ 0)
  refs : g'.refsAt final = some z.refs
  start : g'.refsAt s = if z.back then some (g.refsFrom s) else g.refsAt s
  others : ∀ y < g.states.length, y ≠ s → y ≠ final → g'.refsAt y = g.refsAt y
  le : g.states.length ≤ g'.states.length
  laid : ∃ ts, g'.transitions = g.transitions ++ ts ∧ (z.lenient = true ↔ Lenient ts)

/-- A state that has not been entered brings nothing along, so what comes back to it is
admitted. -/
theorem References.enters_back {known : Option References} {R : References}
    (h : known = none → R = []) :
    References.enters known R = (known.getD []).admits R ∧ known.getD R = known.getD [] := by
  cases known with
  | none =>
    rw [h rfl]
    exact ⟨rfl, rfl⟩
  | some old => exact ⟨rfl, rfl⟩

theorem lenient_nullIf (b : Bool) (p q : ℕ) :
    ¬ Lenient (if b then [⟨p, q, .null, false, false, false⟩] else []) := by
  rintro ⟨t, ht, hl⟩
  cases b with
  | false => exact absurd ht List.not_mem_nil
  | true =>
    obtain rfl := List.mem_singleton.mp ht
    cases hl

/-- One round, and those after it. -/
theorem Rounds.round {Y : References → Passage} {skipped looped : Bool} {next : ℕ}
    (hs : s < g.states.length) (hg : g.Tracked) (hfinal : final < g.states.length)
    (hne : final ≠ s) (h0 : final ≠ 0) (hnil : (Y []).refs = [])
    (hx : Passes s (Y (g.refsFrom s)) (if skipped then g.createNull s final else g) next g₁)
    (hg₁ : g₁.Tracked)
    (hz : Rounds next final z (if looped then g₁.createNull next s else g₁) g') :
    Rounds s final
      ⟨false, (Y (g.refsFrom s)).back || looped || (Y (g.refsFrom s)).idle && z.back,
        (Y (g.refsFrom s)).lenient || z.lenient, z.refs,
        (!skipped || References.enters (g.refsAt final) (g.refsFrom s)) &&
          (Y (g.refsFrom s)).sound && (!looped || (g.refsFrom s).admits (Y (g.refsFrom s)).refs) &&
          z.sound⟩ g g' := by
  set x := Y (g.refsFrom s) with hxdef
  have hskip := g.refsAt_createNullIf hfinal skipped s
  have hlen := createNullIf_length (g := g) skipped s final
  have hle := hx.le
  have hs₁ : s < g₁.states.length := by omega
  have hloop := g₁.refsAt_createNullIf hs₁ looped next
  have hlen₁ := createNullIf_length (g := g₁) looped next s
  have hle' := hz.le
  have hstart₀ : (if skipped then g.createNull s final else g).refsAt s = g.refsAt s := by
    rw [hskip, if_neg fun h => hne h.2.symm]
  have hstart : g₁.refsAt s = if x.back then some (g.refsFrom s) else g.refsAt s := by
    rw [hx.start, hstart₀, g.refsFrom_createNullIf hfinal]
  have hknown : (g₁.refsAt s).getD [] = g.refsFrom s := by
    rw [hstart]
    split <;> rfl
  have hback : g₁.refsAt s = none → x.refs = [] := by
    intro hnone
    rw [hnone] at hknown
    rw [hxdef, ← hknown]
    exact hnil
  obtain ⟨henters, hgetD⟩ := References.enters_back hback
  rw [hknown] at henters hgetD
  rw [hx.refs, hgetD] at hloop
  have hnext : x.idle = true ∧ next = s ∨ x.idle = false ∧ g.states.length ≤ next := by
    cases hidle : x.idle with
    | true => exact .inl ⟨rfl, (hx.idle hidle).1⟩
    | false => exact .inr ⟨rfl, hlen ▸ (hx.moved hidle).1⟩
  refine ⟨?_, hz.refs, ?_, ?_, by omega, ?_⟩
  · have hzero : (z.back = true → next ≠ 0) ↔ (x.idle = true ∧ z.back = true → s ≠ 0) := by
      obtain ⟨hidle, rfl⟩ | ⟨hidle, hn⟩ := hnext
      · simp [hidle]
      · have hn0 : next ≠ 0 := by omega
        simp [hidle, hn0]
    rw [hz.failed, Graph.createNullIf_failed hs₁ looped (hg₁.refsFrom_indexed next), hx.failed,
      Graph.createNullIf_failed hfinal skipped (hg.refsFrom_indexed s), hx.refs, henters, hzero]
    simp only [Bool.and_eq_true, Bool.or_eq_true, Bool.not_eq_true', ← Bool.not_eq_true,
      ← imp_iff_not_or, or_imp]
    constructor
    · rintro ⟨⟨⟨⟨hfailed, hs⟩, hsound, hb⟩, hl⟩, hzsound, hi⟩
      exact ⟨hfailed, ⟨⟨⟨fun h => (hs h).2, hsound⟩, fun h => (hl h).2⟩, hzsound⟩,
        ⟨hb, fun h => (hl h).1⟩, hi⟩
    · rintro ⟨hfailed, ⟨⟨⟨hs, hsound⟩, hl⟩, hzsound⟩, ⟨hb, hl'⟩, hi⟩
      exact ⟨⟨⟨⟨hfailed, fun h => ⟨h0, hs h⟩⟩, hsound, hb⟩, fun h => ⟨hl' h, hl h⟩⟩, hzsound, hi⟩
  · have hloops : (if looped then g₁.createNull next s else g₁).refsAt s =
        if x.back || looped then some (g.refsFrom s) else g.refsAt s := by
      rw [hloop, hstart]
      cases looped <;> cases x.back <;> simp
    obtain ⟨hidle, rfl⟩ | ⟨hidle, hn⟩ := hnext
    · rw [hz.start, hloops, g₁.refsFrom_createNullIf hs₁, Graph.refsFrom, hknown]
      simp only [hidle, Bool.true_and, Bool.or_eq_true]
      cases z.back <;> simp
    · rw [hz.others s (by omega) (by omega) hne.symm, hloops]
      simp only [hidle, Bool.false_and, Bool.or_false]
  · intro y hy hys hyf
    rw [hz.others y (by omega) ?_ hyf, hloop, if_neg fun h => hys h.2, hx.others y (hlen ▸ hy) hys,
      hskip, if_neg fun h => hyf h.2]
    obtain ⟨_, rfl⟩ | ⟨_, hn⟩ := hnext
    · exact hys
    · omega
  · obtain ⟨ts, htrans, hts⟩ := hx.laid
    obtain ⟨us, htrans', hus⟩ := hz.laid
    refine ⟨_, by rw [htrans', (Grows.createNullIf g₁ looped next s).transitions, htrans,
      (Grows.createNullIf g skipped s final).transitions, List.append_assoc, List.append_assoc,
      List.append_assoc], ?_⟩
    simp only [lenient_append, lenient_nullIf, Bool.or_eq_true, hts, hus, false_or]

theorem parseRepetitions_passes {body : ℕ → Graph → Except Panic (ℕ × Graph)}
    {Y : References → Passage} {min max : Int} {infiniteLoop : Bool} {count i : ℕ}
    (hled : ∀ s g f g', s < g.states.length → g.Scoped → body s g = .ok (f, g') → Led s L g f g')
    (hbody : ∀ s g f g', s < g.states.length → g.Tracked → body s g = .ok (f, g') →
      Passes s (Y (g.refsFrom s)) g f g') (hnil : (Y []).refs = [])
    (hs : s < g.states.length) (hg : g.Tracked) (hfinal : final < g.states.length)
    (hne : final ≠ s) (h0 : final ≠ 0)
    (h : parseRepetitions body min max infiniteLoop final count i s g = .ok g') :
    Rounds s final (Passage.rounds Y (fun i => min ≤ i) (fun i => infiniteLoop || max < i) count i
      (g.refsAt final) (g.refsFrom s)) g g' := by
  induction count generalizing s g i with
  | zero =>
    obtain rfl := Except.ok.inj h
    have hat := Graph.refsAt_createNull hfinal s
    refine ⟨?_, ?_, ?_, ?_, (Grows.createNull g s final).le, _,
      (Grows.createNull g s final).transitions, ?_⟩
    · rw [Graph.createNull_failed hfinal (hg.refsFrom_indexed s)]
      simp [Passage.rounds, h0]
    · rw [hat, if_pos rfl]
      rfl
    · rw [hat, if_neg hne.symm]
      rfl
    · intro y _ _ hyf
      rw [hat, if_neg hyf]
    · exact iff_of_false Bool.false_ne_true (lenient_nullIf true s final)
  | succ count ih =>
    obtain ⟨⟨next, g₁⟩, h₁, h⟩ := bind_eq_ok.mp h
    have h₁ : body s (if decide (min ≤ i) then g.createNull s final else g) = .ok (next, g₁) := by
      simpa only [decide_eq_true_eq] using h₁
    have hskip := g.refsAt_createNullIf hfinal (decide (min ≤ i)) s
    have hfrom := g.refsFrom_createNullIf hfinal (decide (min ≤ i)) s
    have hlen := createNullIf_length (g := g) (decide (min ≤ i)) s final
    have hg₀ := hg.createNullIf (decide (min ≤ i)) hs hfinal
    have hx := hbody _ _ _ _ (hlen ▸ hs) hg₀ h₁
    have hled₁ := hled _ _ _ _ (hlen ▸ hs) hg₀.sources h₁
    rw [hfrom] at hx
    have hnext := hled₁.final_lt (hlen ▸ hs)
    have hs₁ : s < g₁.states.length := hs.trans_le (hlen ▸ hled₁.steps.le)
    have hsource : ∀ x ∈ ({s} : Set ℕ), x < (if decide (min ≤ i) then g.createNull s final
        else g).states.length := by
      rintro x rfl
      exact hlen ▸ hs
    have hg₁ := hled₁.steps.tracked hsource hsource hg₀
    have hlen₁ := createNullIf_length (g := g₁) (infiniteLoop || decide (max < i)) next s
    have hloop := g₁.refsAt_createNullIf hs₁ (infiniteLoop || decide (max < i)) next
    have hfinal₁ : final < g₁.states.length := hfinal.trans_le (hlen ▸ hled₁.steps.le)
    have hne₁ : final ≠ next := by
      obtain rfl | hn := hled₁.final
      · exact hne
      · omega
    have hz := ih (hlen₁ ▸ hnext) (hg₁.createNullIf _ hnext hs₁) (hlen₁ ▸ hfinal₁) hne₁ h
    have hknown : (if (infiniteLoop || decide (max < i)) = true then g₁.createNull next s
        else g₁).refsAt final = if decide (min ≤ (i : Int)) = true then
          some ((g.refsAt final).getD (g.refsFrom s)) else g.refsAt final := by
      rw [hloop, if_neg fun h => hne h.2, hx.others final (hlen ▸ hfinal) hne, hskip]
      simp only [and_true]
    rw [hknown, g₁.refsFrom_createNullIf hs₁, hx.refs] at hz
    exact .round hs hg hfinal hne h0 hnil hx hg₁ hz

theorem parseSequence_passes (hp : parse.Stepwise E) (hy : parse.Passing Y)
    (hnil : ∀ e, (Y e []).refs = []) {es : List Expression} {minReps maxReps : Int}
    (hs : s < g.states.length) (hg : g.Tracked)
    (h : parseSequence parse es minReps maxReps s g = .ok (f, g')) :
    Passes s (Passage.repeated (.body (es.map Y)) minReps maxReps (g.refsFrom s)) g f g' := by
  obtain ⟨g₁, h₁, h⟩ := bind_eq_ok.mp h
  obtain ⟨rfl, rfl⟩ := Prod.mk.inj (Except.ok.inj h)
  have hlen : (g.newState false false [] none).2.states.length = g.states.length + 1 :=
    Graph.newState_length ..
  have hat : ∀ y, (g.newState false false [] none).2.refsAt y = g.refsAt y :=
    g.refsAt_newState false false []
  have hbody : (Passage.body (es.map Y) []).refs = [] := by
    refine Passage.body_refs_nil ?_
    intro y hy
    obtain ⟨e, _, rfl⟩ := List.mem_map.mp hy
    exact hnil e
  have hrounds := parseRepetitions_passes (L := fun _ => True)
    (fun _ _ _ _ hs hg h => parseBody_led hp (fun _ _ _ _ => trivial) hs hg h)
    (fun _ _ _ _ hs hg h => parseBody_passes hp hy hs hg h) hbody
    (show s < _ by omega) (hg.newState false) (show g.states.length < _ by omega) (by omega) (by omega) h₁
  have hfrom : (g.newState false false [] none).2.refsFrom s = g.refsFrom s := by
    rw [Graph.refsFrom, hat, Graph.refsFrom]
  rw [hat, Graph.refsAt_eq_none le_rfl, hfrom] at hrounds
  obtain ⟨hfailed, hrefs, hstart, hothers, hle, ts, htrans, hts⟩ := hrounds
  refine ⟨hfailed, ?_, ?_, ?_, ?_, ?_, by omega, ts, htrans, hts⟩
  · intro hidle
    rw [Passage.repeated, Passage.rounds_idle] at hidle
    cases hidle
  · exact fun _ => ⟨le_rfl, by rw [hrefs]; exact Option.some_ne_none _⟩
  · rw [Graph.refsFrom, hrefs]
    rfl
  · rw [hstart, hat, hfrom]
    rfl
  · intro y hy hys
    rw [hothers y (by omega) hys (by omega), hat]

end Functions

/-! ## Boolean expressions -/

section Boolean

variable {lf rf : ℕ}

theorem Graph.refsAt_forked (g : Graph) (y : ℕ) : g.forked.refsAt y = g.refsAt y := by
  rw [forked, refsAt_newState, refsAt_newState]

/-- While the operands are parsed, nothing is bound. -/
theorem operands_quiet (h0 : 0 < g.states.length)
    (hl : Led g.states.length L g.forked lf g₁) (hr : Led (g.states.length + 1) L g₁ rf g₂) :
    Quiet ∅ g.states.length g.forked g₂ := by
  obtain ⟨hl', hr'⟩ := operands_steps hl hr
  refine Steps.quiet (hl'.trans hr') h0 (fun x hx => hx.elim) id ?_
  intro x hx
  have hx : g.states.length ≤ x := hx.resolve_left id
  rw [Graph.refsFrom, g.refsAt_forked, Graph.refsAt_eq_none hx, Option.getD_none]

/-- An operand that has come back to its start does not admit what is bound. -/
theorem References.enters_operand (back : Bool) (R : References) :
    References.enters (if back then some [] else none) R =
      (decide (R.length < 32) && (R.blank || !back)) := by
  cases back with
  | false => simp [enters]
  | true => simp [enters, nil_admits, Bool.and_comm]

/-- The two ends that meet in the state that joins them. -/
theorem References.join_ends {R : References} (left right : Bool) (h : R.length < 32) :
    References.enters none (if left then R else []) = true ∧
      (References.enters (some (if left then R else [])) (if right then R else []) = true ↔
        R.blank = true ∨ left = true ∨ right = false) := by
  refine ⟨?_, ?_⟩
  · cases left <;> simp [enters, h]
  · cases left with
    | false =>
      cases right with
      | false => simp [enters_nil]
      | true => simp [enters, nil_admits, h]
    | true =>
      cases right with
      | false => simp [enters_nil]
      | true => simp [enters, admits_self h]

/-- The operand `x` that was parsed from `n` to `f`, before the branch leads to it. -/
structure Detached (g : Graph) (x : Passage) (n f : ℕ) : Prop where
  idle : x.idle = true → f = n ∧ x.back = false
  moved : x.idle = false → g.refsFrom f = []
  start : g.refsAt n = if x.back then some [] else none

/-- What the operand ends with, once the branch with references `R` leads to it. -/
theorem Detached.refsFrom {R : References} {n : ℕ} (h : Detached g x n f)
    (hat : g'.refsAt n = some (if x.back then [] else R))
    (hkept : x.idle = false → g'.refsAt f = g.refsAt f) :
    g'.refsFrom f = if x.idle then R else [] := by
  cases hidle : x.idle with
  | true =>
    obtain ⟨rfl, hback⟩ := h.idle hidle
    rw [Graph.refsFrom, hat, hback]
    rfl
  | false =>
    rw [Graph.refsFrom, hkept hidle]
    exact h.moved hidle

/-- The branch, to two operands. -/
theorem branch_passes {n : ℕ} {y : Passage} (hs : s < n) (hn : n + 1 < g.states.length)
    (hindexed : (g.refsFrom s).Indexed) (hx : Detached g x n lf) (hy : Detached g y (n + 1) rf) :
    (((g.createNull s n).createNull s (n + 1)).failed = [] ↔ g.failed = [] ∧
        (g.refsFrom s).length < 32 ∧
        ((g.refsFrom s).blank = true ∨ x.back = false ∧ y.back = false)) ∧
      ∀ z, ((g.createNull s n).createNull s (n + 1)).refsAt z =
        if z = n then some (if x.back then [] else g.refsFrom s)
        else if z = n + 1 then some (if y.back then [] else g.refsFrom s)
        else g.refsAt z := by
  have hlen : n + 1 < (g.createNull s n).states.length := by
    rw [Graph.createNull_length]
    exact hn
  have hat := Graph.refsAt_createNull (g := g) (show n < _ by omega) s
  have hat' := Graph.refsAt_createNull hlen s
  have hfrom : (g.createNull s n).refsFrom s = g.refsFrom s := by
    rw [Graph.refsFrom, hat, if_neg hs.ne, Graph.refsFrom]
  have hright : (g.createNull s n).refsAt (n + 1) = if y.back then some [] else none := by
    rw [hat, if_neg (by omega), hy.start]
  rw [hfrom, hright] at hat'
  rw [hx.start] at hat
  refine ⟨?_, ?_⟩
  · rw [Graph.createNull_failed hlen (hfrom ▸ hindexed),
      Graph.createNull_failed (by omega) hindexed, hfrom, hright, hx.start,
      References.enters_operand, References.enters_operand]
    have hn0 : n ≠ 0 := by omega
    simp only [Bool.and_eq_true, decide_eq_true_eq, Bool.or_eq_true, Bool.not_eq_true', hn0, ne_eq,
      not_false_eq_true, true_and, Nat.add_eq_zero_iff, one_ne_zero, and_false, and_assoc]
    cases x.back <;> cases y.back <;> simp +contextual
  · intro z
    rw [hat']
    by_cases hz : z = n
    · rw [if_neg (by omega), hat, if_pos hz, if_pos hz]
      cases x.back <;> rfl
    · rw [if_neg hz, hat, if_neg hz]
      cases y.back <;> rfl

/-- The branch, and the end of the operands. -/
theorem joinOperands_passes {n : ℕ} {y : Passage} (hs : s < n) (hn : n + 1 < g.states.length)
    (hlf : lf < g.states.length) (hrf : rf < g.states.length) (hg : g.Tracked)
    (hx : Detached g x n lf) (hy : Detached g y (n + 1) rf)
    (hlf' : x.idle = false → n + 1 < lf) (hrf' : y.idle = false → n + 1 < rf) :
    ((joinOperands s n (n + 1) lf rf g).failed = [] ↔
        g.failed = [] ∧ (x.fork y (g.refsFrom s)).sound = true) ∧
      (joinOperands s n (n + 1) lf rf g).refsAt g.states.length =
        some (x.fork y (g.refsFrom s)).refs ∧
      ∀ z < n, (joinOperands s n (n + 1) lf rf g).refsAt z = g.refsAt z := by
  obtain ⟨hfailed, hat⟩ := branch_passes hs hn (hg.refsFrom_indexed s) hx hy
  have hg₂ : ((g.createNull s n).createNull s (n + 1)).Tracked := by
    have hlen : (g.createNull s n).states.length = g.states.length := Graph.createNull_length ..
    exact (hg.register (show s < _ by omega) (show n < _ by omega)).register
      (show s < (g.createNull s n).states.length by omega)
      (show n + 1 < (g.createNull s n).states.length by omega)
  have hlen : ((g.createNull s n).createNull s (n + 1)).states.length = g.states.length := by
    rw [Graph.createNull_length, Graph.createNull_length]
  have hjoin : (((g.createNull s n).createNull s (n + 1)).newState false false [] none).1 =
      g.states.length := by simp [Graph.newState]
  simp only [joinOperands, hjoin]
  generalize (g.createNull s n).createNull s (n + 1) = g₂ at *
  have hlen₃ : (g₂.newState false false [] none).2.states.length = g.states.length + 1 := by
    rw [Graph.newState_length, hlen]
  have hat₃ : ∀ z, (g₂.newState false false [] none).2.refsAt z = g₂.refsAt z :=
    g₂.refsAt_newState false false []
  have hfailed₃ : (g₂.newState false false [] none).2.failed = g₂.failed := rfl
  have hg₃ := hg₂.newState false
  generalize (g₂.newState false false [] none).2 = g₃ at *
  -- what the operands bring along
  have hleft : g₃.refsFrom lf = if x.idle then g.refsFrom s else [] := by
    refine hx.refsFrom (by rw [hat₃, hat, if_pos rfl]) ?_
    intro hidle
    have := hlf' hidle
    rw [hat₃, hat, if_neg (by omega), if_neg (by omega)]
  have hright : g₃.refsFrom rf = if y.idle then g.refsFrom s else [] := by
    refine hy.refsFrom (by rw [hat₃, hat, if_neg (by omega), if_pos rfl]) ?_
    intro hidle
    have := hrf' hidle
    rw [hat₃, hat, if_neg (by omega), if_neg (by omega)]
  have hnone : g₃.refsAt g.states.length = none := by
    rw [hat₃, Graph.refsAt_eq_none hlen.le]
  have hat₄ := Graph.refsAt_createNull (g := g₃) (show g.states.length < _ by omega) lf
  have hfrom₄ : (g₃.createNull lf g.states.length).refsFrom rf = g₃.refsFrom rf := by
    rw [Graph.refsFrom, hat₄, if_neg hrf.ne, Graph.refsFrom]
  have hlen₄ : g.states.length < (g₃.createNull lf g.states.length).states.length := by
    rw [Graph.createNull_length]
    omega
  have hat₅ := Graph.refsAt_createNull hlen₄ rf
  rw [hnone, Option.getD_none, hleft] at hat₄
  refine ⟨?_, ?_, ?_⟩
  · rw [Graph.createNull_failed hlen₄ (hfrom₄ ▸ hg₃.refsFrom_indexed rf), hat₄, if_pos rfl, hfrom₄,
      Graph.createNull_failed (by omega) (hg₃.refsFrom_indexed lf), hnone, hleft, hright, hfailed₃,
      hfailed]
    have h0 : g.states.length ≠ 0 := by omega
    simp only [and_assoc, Passage.fork, Bool.and_eq_true, decide_eq_true_eq]
    refine and_congr_right fun _ => and_congr_right fun hsize => ?_
    obtain ⟨hfirst, hsecond⟩ := References.join_ends x.idle y.idle hsize
    rw [hsecond, hfirst]
    simp only [h0, ne_eq, not_false_eq_true, true_and, Bool.and_eq_true, Bool.or_eq_true,
      Bool.not_eq_true']
    exact or_and_left.symm
  · rw [hat₅, if_pos rfl, hat₄, if_pos rfl]
    rfl
  · intro z hz
    rw [hat₅, if_neg (by omega), hat₄, if_neg (by omega), hat₃, hat, if_neg (by omega),
      if_neg (by omega)]

/-- A walk that stops at the end of an operand does not leave it. -/
theorem reachable_inside {S : ℕ → Prop} {ls rs start stop : ℕ} {t : Transition × ℕ}
    (hS : ∀ t ∈ g.transitions, S t.source → S t.dest) (hs : ¬ S s) (hlf : S lf → lf = stop)
    (hrf : S rf → rf = stop) (hstart : S start)
    (ht : t ∈ calculateReachableTransitionsBetween (joinOperands s ls rs lf rf g) start stop) :
    t.1 ∈ g.transitions := by
  have hinside : ∀ t, Leaves (joinOperands s ls rs lf rf g) stop S t → t.1 ∈ g.transitions := by
    rintro t ⟨hmem, hsource, hstop⟩
    have hmem := List.fst_mem_of_mem_zipIdx hmem
    rw [(joinOperands_grows s ls rs lf rf g).1.transitions, List.mem_append] at hmem
    obtain hmem | hmem := hmem
    · exact hmem
    · simp only [joints, List.mem_cons, List.not_mem_nil, or_false] at hmem
      obtain heq | heq | heq | heq := hmem
      · exact absurd (by rwa [heq] at hsource) hs
      · exact absurd (by rwa [heq] at hsource) hs
      · rw [heq] at hsource hstop
        exact absurd (hlf hsource) hstop
      · rw [heq] at hsource hstop
        exact absurd (hrf hsource) hstop
  exact hinside t (calculateReachable_sound (fun t h => hS _ (hinside t h) h.2.1) hstart ht)

section Regions

variable (hl : Led g.states.length L g.forked lf g₁) (hr : Led (g.states.length + 1) L g₁ rf g₂)
include hl hr

theorem mem_operands {t : Transition} (ht : t ∈ g₂.transitions) : t ∈ g.transitions ∨
    Laid {g.states.length} {g.states.length} (g.states.length + 2) g₁.states.length L t ∨
    Laid {g.states.length + 1} {g.states.length + 1} g₁.states.length g₂.states.length L t := by
  obtain ⟨ts₁, hgrows₁, hts₁⟩ := hl.steps.laid
  obtain ⟨ts₂, hgrows₂, hts₂⟩ := hr.steps.laid
  rw [g.forked_length] at hts₁
  rw [hgrows₂.transitions, hgrows₁.transitions, List.mem_append, List.mem_append, or_assoc] at ht
  exact ht.imp_right (Or.imp (hts₁ t) (hts₂ t))

/-- The walks along the operands take what was laid for them. -/
theorem reachable_operands (hs : s < g.states.length) (hg : g.Scoped) {t : Transition × ℕ}
    (ht : t ∈ calculateReachableTransitionsBetween
        (joinOperands s g.states.length (g.states.length + 1) lf rf g₂) g.states.length lf ∨
      t ∈ calculateReachableTransitionsBetween
        (joinOperands s g.states.length (g.states.length + 1) lf rf g₂) (g.states.length + 1) rf) :
    t.1 ∈ g₂.transitions := by
  have hlen := g.forked_length
  have hle := hl.steps.le
  have hle' := hr.steps.le
  have hlf := hl.final
  have hrf := hr.final
  simp only [Own] at hlf hrf
  obtain ht | ht := ht
  · refine reachable_inside (S := Among {g.states.length} (g.states.length + 2) g₁.states.length)
      ?_ ?_ (fun _ => rfl) ?_ (.inl rfl) ht
    · intro t ht hsource
      obtain ht | ht | ht := mem_operands hl hr ht
      · have := hg t ht
        simp only [Among, Set.mem_singleton_iff] at hsource
        omega
      · exact ht.dest
      · have := ht.source
        simp only [Among, Set.mem_singleton_iff] at hsource this
        omega
    · simp only [Among, Set.mem_singleton_iff]
      omega
    · simp only [Among, Set.mem_singleton_iff]
      omega
  · refine reachable_inside (S := Among {g.states.length + 1} g₁.states.length g₂.states.length)
      ?_ ?_ ?_ (fun _ => rfl) (.inl rfl) ht
    · intro t ht hsource
      obtain ht | ht | ht := mem_operands hl hr ht
      · have := hg t ht
        simp only [Among, Set.mem_singleton_iff] at hsource
        omega
      · have := ht.source
        simp only [Among, Set.mem_singleton_iff] at hsource this
        omega
      · exact ht.dest
    · simp only [Among, Set.mem_singleton_iff]
      omega
    · simp only [Among, Set.mem_singleton_iff]
      omega

theorem joinOperands_kept {R : References} (hx : g₂.refsAt y = some R) :
    (joinOperands s g.states.length (g.states.length + 1) lf rf g₂).refsAt y = some R := by
  have hlen := g.forked_length
  have hle := hl.steps.le
  have hle' := hr.steps.le
  have hjoin : (((g₂.createNull s g.states.length).createNull s (g.states.length + 1)).newState
      false false [] none).1 = g₂.states.length := by simp [Graph.newState]
  simp only [joinOperands, hjoin]
  refine Graph.register_kept ?_ (Graph.register_kept ?_ ?_)
  · simp [Graph.newState_length]
  · simp [Graph.newState_length]
  · rw [Graph.refsAt_newState]
    refine Graph.register_kept ?_ (Graph.register_kept ?_ hx)
    · rw [Graph.createNull_length]
      show g.states.length + 1 < _
      omega
    · show g.states.length < _
      omega

/-- The grid of an inclusive OR is laid among states where nothing is bound. -/
theorem inclusive_quiet {suppress : Bool} {G : Graph} (hs : s < g.states.length) (hg : g.Scoped)
    (hg₂ : g₂.Tracked) (hblank : ∀ y, g.states.length ≤ y → g₂.refsFrom y = []) {K : Label → Prop}
    (hK : ∀ t ∈ g₂.transitions, g.states.length ≤ t.source → K t.label)
    (hG : convertIncOrToExcOr suppress g.states.length (g.states.length + 1) lf rf
      g₂.states.length (joinOperands s g.states.length (g.states.length + 1) lf rf g₂) = G) :
    (∃ Z : Set ℕ, (∀ x ∈ Z, g.states.length ≤ x) ∧ Quiet Z (g₂.states.length + 1)
        (joinOperands s g.states.length (g.states.length + 1) lf rf g₂) G) ∧
      ∃ us, Grows (joinOperands s g.states.length (g.states.length + 1) lf rf g₂) G us ∧
        ∀ t ∈ us, t.label = .null ∨ K t.label := by
  obtain ⟨-, hlen⟩ := joinOperands_grows s g.states.length (g.states.length + 1) lf rf g₂
  have hlhs := fun t => reachable_laid hl hr hs hg (t := t) lf le_rfl
  have hrhs := fun t => reachable_laid hl hr hs hg (t := t) rf (Nat.le_succ _)
  have hinside := fun t => reachable_operands hl hr hs hg (t := t)
  have hkept := fun y R => joinOperands_kept hl hr (s := s) (y := y) (R := R)
  have hpos : 0 < g₂.states.length := by
    have := g.forked_length
    have := hl.steps.le
    have := hr.steps.le
    omega
  have hle : g.states.length ≤ g₂.states.length := by
    have := g.forked_length
    have := hl.steps.le
    have := hr.steps.le
    omega
  generalize joinOperands s g.states.length (g.states.length + 1) lf rf g₂ = J at *
  have hK' : ∀ {t : Transition × ℕ}, t.1 ∈ g₂.transitions →
      Laid ∅ ∅ g.states.length (g₂.states.length + 1) L t.1 →
      Laid ∅ ∅ g.states.length (g₂.states.length + 1) K t.1 := by
    intro t ht h
    exact ⟨h.source, h.dest, .inr (hK _ ht (h.source.resolve_left id).1), h.init, h.cleanup,
      h.inScope⟩
  have hgrid := convertIncOrToExcOr_steps suppress g₂.states.length
    (fun t ht => hK' (hinside t (.inl ht)) (hlhs t ht))
    (fun t ht => hK' (hinside t (.inr ht)) (hrhs t ht))
  have hcrossed : ∀ x ∈ J.crossed g.states.length (g.states.length + 1) lf rf,
      g.states.length ≤ x ∧ x < J.states.length ∧ J.refsFrom x = [] := by
    rintro x ⟨t, ht, rfl⟩
    have hdest : g.states.length ≤ t.1.dest ∧ t.1.dest < g₂.states.length + 1 := by
      obtain ht | ht := ht
      · exact (hlhs t ht).dest.resolve_left id
      · exact (hrhs t ht).dest.resolve_left id
    obtain ⟨R, hR⟩ := Option.ne_none_iff_exists'.mp (hg₂.entered _ (hinside t ht))
    have hnil := hblank _ hdest.1
    rw [Graph.refsFrom, hR, Option.getD_some] at hnil
    refine ⟨hdest.1, hlen ▸ hdest.2, ?_⟩
    rw [Graph.refsFrom, hkept _ _ hR, hnil, Option.getD_some]
  have hquiet : Quiet (insert g₂.states.length (J.crossed g.states.length (g.states.length + 1)
      lf rf)) J.states.length J G := by
    rw [← hG]
    refine hgrid.quiet (by omega) ?_ ?_ ?_
    · rintro x (rfl | hx)
      · omega
      · exact (hcrossed x hx).2.1
    · rintro (h0 | h0)
      · omega
      · have := (hcrossed 0 h0).1
        omega
    · rintro x (hx | hx)
      · exact (hcrossed x hx).2.2
      · rw [Graph.refsFrom, Graph.refsAt_eq_none hx, Option.getD_none]
  rw [hlen] at hquiet
  refine ⟨⟨_, ?_, hquiet⟩, ?_⟩
  · rintro x (rfl | hx)
    · exact hle
    · exact (hcrossed x hx).1
  · obtain ⟨us, hgrows, hus⟩ := hgrid.laid
    exact ⟨us, hG ▸ hgrows, fun t ht => (hus t ht).label⟩

end Regions

/-- An operand is parsed from a state without references. -/
theorem Passes.detached {n : ℕ} {g'' : Graph} (h : Passes n x g f g') (hn : g.refsAt n = none)
    (hkept : g''.refsAt n = g'.refsAt n) (hblank : g''.refsFrom f = []) : Detached g'' x n f := by
  have hstart := h.start
  rw [Graph.refsFrom, hn, Option.getD_none] at hstart
  refine ⟨?_, fun _ => hblank, by rw [hkept, hstart]⟩
  intro hidle
  obtain ⟨rfl, rfl⟩ := h.idle hidle
  rw [hn] at hstart
  cases hback : x.back with
  | false => exact ⟨rfl, rfl⟩
  | true =>
    rw [hback] at hstart
    cases hstart

variable {parse : Operand} {E : Expression → Label → Prop} {Y : Expression → References → Passage}
  {suppress : Bool} {operation : Operation} {lhs rhs : Expression}

/-- The joints and the grid of an inclusive or are not lenient unless an operand is. -/
theorem lenient_joined {p q lf rf j : ℕ} {ts us : List Transition}
    (hus : ∀ t ∈ us, t.label = .null ∨ (t.label.lenient = true → Lenient ts)) :
    Lenient (ts ++ (joints s p q lf rf j ++ us)) ↔ Lenient ts := by
  have hjoints : ¬ Lenient (joints s p q lf rf j) := by
    simp [Lenient, joints, Label.lenient]
  have hgrid : Lenient us → Lenient ts := by
    rintro ⟨t, ht, hlenient⟩
    obtain hnull | hK := hus t ht
    · rw [hnull] at hlenient
      cases hlenient
    · exact hK hlenient
  rw [lenient_append, lenient_append]
  constructor
  · rintro (h | h | h)
    · exact h
    · exact absurd h hjoints
    · exact hgrid h
  · exact .inl

theorem parseBoolean_passes (hp : parse.Stepwise E) (hy : parse.Passing Y)
    (hs : s < g.states.length) (hg : g.Tracked)
    (h : parseBoolean suppress parse operation lhs rhs s g = .ok (f, g')) :
    Passes s (.fork (Y lhs []) (Y rhs []) (g.refsFrom s)) g f g' := by
  obtain ⟨lf, g₁, rf, g₂, hl, hr, rfl, rfl⟩ := parseBoolean_ok h
  obtain ⟨hledl, hledr⟩ := operands_led hp hg.sources hl hr
  have hledl : Led g.states.length (fun _ => True) g.forked lf g₁ := hledl.mono fun _ _ => trivial
  have hledr : Led (g.states.length + 1) (fun _ => True) g₁ rf g₂ := hledr.mono fun _ _ => trivial
  have hlen := g.forked_length
  have hle := hledl.steps.le
  have hle' := hledr.steps.le
  obtain ⟨hlf, hlf', hrf, hrf'⟩ := operands_final hledl hledr
  have hquiet := operands_quiet (by omega) hledl hledr
  have hg₀ : g.forked.Tracked := (hg.newState false).newState false
  have hsub : ∀ {n m : ℕ}, n < m → ∀ x ∈ ({n} : Set ℕ), x < m := by
    rintro n m h x rfl
    exact h
  have hg₁ : g₁.Tracked := hledl.steps.tracked (hsub (by omega)) (hsub (by omega)) hg₀
  have hg₂ : g₂.Tracked := hledr.steps.tracked (hsub (by omega)) (hsub (by omega)) hg₁
  have hnone : ∀ y, g.states.length ≤ y → g.forked.refsAt y = none := by
    intro y hy
    rw [g.refsAt_forked, Graph.refsAt_eq_none hy]
  have hblank : ∀ y, g.states.length ≤ y → g₂.refsFrom y = [] := by
    intro y hy
    rw [hquiet.refsFrom, Graph.refsFrom, hnone y hy, Option.getD_none]
  have hpassl := hy lhs _ _ _ _ (by omega) hg₀ hl
  have hnone₁ : g₁.refsAt (g.states.length + 1) = none := by
    rw [hpassl.others _ (by omega) (by omega), hnone _ (Nat.le_succ _)]
  have hpassr := hy rhs _ _ _ _ (by omega) hg₁ hr
  rw [Graph.refsFrom, hnone _ le_rfl, Option.getD_none] at hpassl
  rw [Graph.refsFrom, hnone₁, Option.getD_none] at hpassr
  have hx := hpassl.detached (hnone _ le_rfl) (hpassr.others _ (by omega) (by omega)) (hblank _ hlf)
  have hy' := hpassr.detached hnone₁ rfl (hblank _ hrf)
  have hfrom : g₂.refsFrom s = g.refsFrom s := by
    rw [hquiet.refsFrom, Graph.refsFrom, g.refsAt_forked, Graph.refsFrom]
  have hmoved : (Y lhs []).idle = false → g.states.length + 1 < lf := by
    intro hidle
    have := (hpassl.moved hidle).1
    omega
  have hmoved' : (Y rhs []).idle = false → g.states.length + 1 < rf := by
    intro hidle
    have := (hpassr.moved hidle).1
    omega
  obtain ⟨hfailed, hjoin, hbelow⟩ := joinOperands_passes hs (by omega) hlf' hrf' hg₂ hx hy' hmoved
    hmoved'
  rw [hfrom] at hfailed hjoin
  obtain ⟨ts₁, htrans₁, hts₁⟩ := hpassl.laid
  obtain ⟨ts₂, htrans₂, hts₂⟩ := hpassr.laid
  have htrans : g₂.transitions = g.transitions ++ (ts₁ ++ ts₂) := by
    rw [htrans₂, htrans₁, List.append_assoc]
    rfl
  have hK : ∀ t ∈ g₂.transitions, g.states.length ≤ t.source →
      t.label.lenient = true → Lenient (ts₁ ++ ts₂) := by
    intro t ht hsource hlenient
    rw [htrans, List.mem_append] at ht
    obtain ht | ht := ht
    · exact absurd hsource (not_le_of_gt (hg.sources t ht))
    · exact ⟨t, ht, hlenient⟩
  generalize hG : (if operation = .or then _ else _ : Graph) = G
  obtain ⟨⟨Z, hZ, hquiet'⟩, us, hgrows, hus⟩ : (∃ Z : Set ℕ, (∀ x ∈ Z, g.states.length ≤ x) ∧
      Quiet Z (g₂.states.length + 1)
        (joinOperands s g.states.length (g.states.length + 1) lf rf g₂) G) ∧
      ∃ us, Grows (joinOperands s g.states.length (g.states.length + 1) lf rf g₂) G us ∧
        ∀ t ∈ us, t.label = .null ∨ (t.label.lenient = true → Lenient (ts₁ ++ ts₂)) := by
    split at hG
    · exact inclusive_quiet (K := fun l => l.lenient = true → Lenient (ts₁ ++ ts₂)) hledl hledr hs
        hg.sources hg₂ hblank hK hG
    · rw [hG]
      exact ⟨⟨∅, fun x hx => hx.elim, .refl _ _ G⟩, [], .refl G, fun t ht => by cases ht⟩
  obtain ⟨hgrows₂, hlen₂⟩ := joinOperands_grows s g.states.length (g.states.length + 1) lf rf g₂
  have hrefs : G.refsAt g₂.states.length =
      some (Passage.fork (Y lhs []) (Y rhs []) (g.refsFrom s)).refs := hquiet'.kept _ _ hjoin
  have hold : ∀ y < g.states.length, G.refsAt y = g.refsAt y := by
    intro y hy
    rw [hquiet'.apart y (fun h => absurd (hZ y h) (not_le_of_gt hy)) (by omega), hbelow y hy,
      hquiet.apart y id hy, g.refsAt_forked]
  have hle₂ := hgrows.le
  refine ⟨?_, fun h => (by cases h), fun _ => ⟨by omega, ?_⟩, ?_, ?_, fun y hy _ => hold y hy,
    by omega, _, by rw [hgrows.transitions, hgrows₂.transitions, htrans, List.append_assoc,
      List.append_assoc], ?_⟩
  · have hforked : g.forked.failed = g.failed := rfl
    rw [hquiet'.failed, hfailed, hquiet.failed, hforked]
    simp [Passage.fork]
  · rw [hrefs]
    exact Option.some_ne_none _
  · rw [Graph.refsFrom, hrefs, Option.getD_some]
  · rw [hold s hs]
    rfl
  · rw [lenient_joined hus, Passage.fork, Bool.or_eq_true, hts₁, hts₂, lenient_append]

end Boolean

/-- Every expression is parsed as its passage says. -/
theorem Parser.parse_passes (P : Parser) (fuel : ℕ) : (P.operand fuel).Passing (P.passage fuel) := by
  induction fuel with
  | zero =>
    intro e s g f g' _ _ h
    cases h
  | succ fuel ih =>
    intro e s g f g' hs hg h
    cases e with
    | nullExpr =>
      obtain ⟨rfl, rfl⟩ := Prod.mk.inj (Except.ok.inj h)
      exact .null s g
    | assertionSite site =>
      obtain ⟨rfl, rfl⟩ := Prod.mk.inj (Except.ok.inj h)
      exact .event hs hg _ false false
    | function ev =>
      obtain ⟨rfl, rfl⟩ := Prod.mk.inj (Except.ok.inj h)
      exact .event hs hg _ false false
    | fieldAssign assign =>
      obtain ⟨rfl, rfl⟩ := Prod.mk.inj (Except.ok.inj h)
      exact .event hs hg _ false false
    | sequence es minReps maxReps =>
      exact parseSequence_passes (P.parse_led fuel) ih (P.passage_refs_nil fuel) hs hg h
    | booleanExpr operation lhs rhs => exact parseBoolean_passes (P.parse_led fuel) ih hs hg h
    | subAutomaton id =>
      obtain ⟨_, _, h⟩ := bind_eq_ok.mp h
      simp only [passage]
      split at h
      · next hsub =>
        obtain ⟨rfl, rfl⟩ := Prod.mk.inj (Except.ok.inj h)
        rw [if_pos hsub]
        exact .event hs hg _ false false
      · next hsub =>
        split at h
        · cases h
        · next a ha =>
          rw [if_neg hsub, ha]
          exact ih a.expression s g f g' hs hg h

end Tesla.Automata
