/-
# `Tesla.Automata.Steps` — what a parse does to the graph, step by step

`Built` describes the piece that a parse adds, for the expressions it covers.  Here
every expression is covered, and less is said: a parse makes new states, and lays
transitions that neither initialise nor clean up.

    Step A Z base     a new state, or a transition from `A` or a new state to `Z` or
                      a new state, where new are the states from `base` on
    Operand.Stepwise  a parse from `s` takes such steps with `A = Z = {s}`, and leads
                      from `s` to the state it returns

What holds of a graph and survives a step survives a parse, whatever is parsed.
-/
import Tesla.Automata.Language
import Tesla.Lib.Ensures

namespace Tesla.Automata

open Lib Relation

variable {A A' Z Z' : Set ℕ} {base base' s f p q x n : ℕ} {L L' : Label → Prop} {l : Label}
  {g g' g₁ g₂ : Graph} {t : Transition} {ts : List Transition} {w : List Letter}

/-! ## Steps -/

/-- A state of `A`, or a new one. -/
def Among (A : Set ℕ) (base n x : ℕ) : Prop := x ∈ A ∨ base ≤ x ∧ x < n

inductive Step (A Z : Set ℕ) (base : ℕ) (L : Label → Prop) : Graph → Graph → Prop
  | state (g : Graph) : Step A Z base L g (g.newState false false [] none).2
  | add {g : Graph} {p q : ℕ} {l : Label} (hl : l = .null ∨ L l)
      (hp : Among A base g.states.length p) (hq : Among Z base g.states.length q) :
      Step A Z base L g (g.create p q l false false)

abbrev Steps (A Z : Set ℕ) (base : ℕ) (L : Label → Prop) : Graph → Graph → Prop :=
  ReflTransGen (Step A Z base L)

theorem Among.mono (h : Among A base n x) {n' : ℕ} (hA : ∀ x ∈ A, Among A' base' n' x)
    (hbase : base' ≤ base) (hn : n ≤ n') : Among A' base' n' x := by
  obtain hx | ⟨hx, hx'⟩ := h
  · exact hA x hx
  · exact .inr ⟨hbase.trans hx, hx'.trans_le hn⟩

theorem Among.grow (h : Among A base n x) {n' : ℕ} (hn : n ≤ n') : Among A base n' x :=
  h.mono (fun _ hx => .inl hx) le_rfl hn

/-- A transition that a step lays. -/
structure Laid (A Z : Set ℕ) (base n : ℕ) (L : Label → Prop) (t : Transition) : Prop where
  source : Among A base n t.source
  dest : Among Z base n t.dest
  label : t.label = .null ∨ L t.label
  init : t.init = false
  cleanup : t.cleanup = false
  inScope : t.outOfScope = false

theorem Laid.grow (h : Laid A Z base n L t) {n' : ℕ} (hn : n ≤ n') : Laid A Z base n' L t :=
  ⟨h.source.grow hn, h.dest.grow hn, h.label, h.init, h.cleanup, h.inScope⟩

theorem Step.laid (h : Step A Z base L g g') :
    ∃ ts, Grows g g' ts ∧ ∀ t ∈ ts, Laid A Z base g'.states.length L t := by
  cases h with
  | state => exact ⟨[], .newState g, fun t ht => absurd ht List.not_mem_nil⟩
  | @add p q l hl hp hq =>
    refine ⟨_, .register g _, ?_⟩
    intro t ht
    obtain rfl := List.mem_singleton.mp ht
    refine ⟨?_, ?_, hl, rfl, rfl, rfl⟩
    · rwa [Graph.create, Graph.register_length]
    · rwa [Graph.create, Graph.register_length]

namespace Steps

theorem laid (h : Steps A Z base L g g') :
    ∃ ts, Grows g g' ts ∧ ∀ t ∈ ts, Laid A Z base g'.states.length L t := by
  induction h with
  | refl => exact ⟨[], .refl g, fun t ht => absurd ht List.not_mem_nil⟩
  | tail _ hstep ih =>
    obtain ⟨ts, hgrows, hts⟩ := ih
    obtain ⟨ts', hgrows', hts'⟩ := hstep.laid
    refine ⟨ts ++ ts', hgrows.trans hgrows', ?_⟩
    intro t ht
    obtain ht | ht := List.mem_append.mp ht
    · exact (hts t ht).grow hgrows'.le
    · exact hts' t ht

theorem le (h : Steps A Z base L g g') : g.states.length ≤ g'.states.length := by
  obtain ⟨_, hgrows, _⟩ := h.laid
  exact hgrows.le

theorem walk (h : Steps A Z base L g g') (hw : Walk g.edges p w q) : Walk g'.edges p w q := by
  obtain ⟨ts, hgrows, _⟩ := h.laid
  refine hw.mono ?_
  intro e he
  rw [Graph.edges, hgrows.transitions, List.map_append]
  exact List.mem_append_left _ he

/-- A region may be seen as part of another. -/
theorem mono (h : Steps A Z base L g g') (hA : ∀ x ∈ A, Among A' base' g.states.length x)
    (hZ : ∀ x ∈ Z, Among Z' base' g.states.length x) (hbase : base' ≤ base)
    (hL : ∀ l, L l → L' l) : Steps A' Z' base' L' g g' := by
  induction h with
  | refl => exact .refl
  | @tail g₁ g' hsteps hstep ih =>
    have hle : g.states.length ≤ g₁.states.length := Steps.le hsteps
    refine ih.tail ?_
    cases hstep with
    | state => exact .state g₁
    | add hl hp hq =>
      exact .add (hl.imp_right (hL _)) (hp.mono (fun x hx => (hA x hx).grow hle) hbase le_rfl)
        (hq.mono (fun x hx => (hZ x hx).grow hle) hbase le_rfl)

theorem null (hp : Among A base g.states.length p) (hq : Among Z base g.states.length q) :
    Steps A Z base L g (g.createNull p q) := .single (.add (.inl rfl) hp hq)

theorem nullIf (b : Bool) (hp : Among A base g.states.length p)
    (hq : Among Z base g.states.length q) :
    Steps A Z base L g (if b then g.createNull p q else g) := by
  cases b with
  | false => exact .refl
  | true => exact .null hp hq

end Steps

theorem Steps.scoped (h : Steps A Z base L g g') (hA : ∀ x ∈ A, x < g.states.length) (hg : g.Scoped) :
    g'.Scoped := by
  obtain ⟨ts, hgrows, hts⟩ := h.laid
  refine hg.grows hgrows ?_
  intro t ht
  obtain hx | hx := (hts t ht).source
  · exact (hA _ hx).trans_le hgrows.le
  · exact hx.2

theorem Graph.create_walk (g : Graph) (p q : ℕ) (l : Label) :
    Walk (g.create p q l false false).edges p l.letter.toList q := by
  have hedge : ⟨p, l.letter, q⟩ ∈ (g.create p q l false false).edges := by
    rw [edges, create, register_transitions, List.map_append]
    exact List.mem_append_right _ List.mem_cons_self
  exact .edge hedge

theorem Graph.createNull_walk (g : Graph) (p q : ℕ) : Walk (g.createNull p q).edges p [] q :=
  g.create_walk p q .null

/-! ## Expressions -/

/-- The labels of the events of an expression, sub-automata included. -/
def Parser.labels (P : Parser) : ℕ → Expression → List Label
  | 0, _ => []
  | fuel + 1, e =>
    match e with
    | .booleanExpr _ lhs rhs => P.labels fuel lhs ++ P.labels fuel rhs
    | .sequence es _ _ => es.flatMap (P.labels fuel)
    | .subAutomaton id =>
      if P.subAutomataAllowed then [.subAutomaton id]
      else ((P.descriptions.bind (· id)).map fun a => P.labels fuel a.expression).getD []
    | e => (P.label e).toList

/-- A parse takes steps, and leads to the state it returns. -/
structure Led (s : ℕ) (L : Label → Prop) (g : Graph) (f : ℕ) (g' : Graph) : Prop where
  steps : Steps {s} {s} g.states.length L g g'
  final : Own s g.states.length g'.states.length f
  path : ∃ w, Walk g'.edges s w f

def Operand.Stepwise (parse : Operand) (L : Expression → Label → Prop) : Prop :=
  ∀ e s g f g', s < g.states.length → g.Scoped → parse e s g = .ok (f, g') → Led s (L e) g f g'

namespace Led

theorem refl (s : ℕ) (L : Label → Prop) (g : Graph) : Led s L g s g :=
  ⟨.refl, .inl rfl, [], .nil s⟩

theorem final_lt (h : Led s L g f g') (hs : s < g.states.length) : f < g'.states.length := by
  obtain rfl | hf := h.final
  · exact hs.trans_le h.steps.le
  · exact hf.2

theorem among (h : Led s L g f g') : Among {s} g.states.length g'.states.length f := h.final

theorem mono (h : Led s L g f g') (hL : ∀ l, L l → L' l) : Led s L' g f g' :=
  ⟨h.steps.mono (fun _ hx => .inl hx) (fun _ hx => .inl hx) le_rfl hL, h.final, h.path⟩

theorem trans {c : ℕ} (h : Led s L g c g₁) (h' : Led c L g₁ f g') : Led s L g f g' := by
  have hle := h.steps.le
  have hc : ∀ x ∈ ({c} : Set ℕ), Among {s} g.states.length g₁.states.length x := by
    rintro x rfl
    exact h.among
  obtain ⟨w, hw⟩ := h.path
  obtain ⟨w', hw'⟩ := h'.path
  refine ⟨h.steps.trans (h'.steps.mono hc hc hle fun _ h => h), ?_, w ++ w',
    (h'.steps.walk hw).append hw'⟩
  exact h'.among.mono (fun x hx => (hc x hx).grow h'.steps.le) hle le_rfl

/-- A new state, and a transition to it. -/
theorem event (hl : L l) : Led s L g g.states.length (parseEvent l s false false g).2 := by
  have hlen : g.states.length < (g.newState false false [] none).2.states.length := by
    rw [Graph.newState_length]
    exact Nat.lt_succ_self _
  refine ⟨?_, .inr ⟨le_rfl, ?_⟩, l.letter.toList, Graph.create_walk ..⟩
  · exact (ReflTransGen.single (.state g)).tail (.add (.inr hl) (.inl rfl) (.inr ⟨le_rfl, hlen⟩))
  · obtain ⟨-, hlen', -, -⟩ := parseEvent_spec (s := s) l false false g
    omega

end Led

section Functions

variable {parse : Operand} {E : Expression → Label → Prop}

theorem parseBody_led (hp : parse.Stepwise E) {es : List Expression}
    (hE : ∀ e ∈ es, ∀ l, E e l → L l) (hs : s < g.states.length) (hg : g.Scoped)
    (h : parseBody parse es s g = .ok (f, g')) : Led s L g f g' := by
  induction es generalizing s g with
  | nil =>
    obtain ⟨rfl, rfl⟩ := Prod.mk.inj (Except.ok.inj h)
    exact .refl s L g
  | cons e es ih =>
    obtain ⟨⟨c, g₁⟩, h₁, h⟩ := bind_eq_ok.mp h
    rw [List.forall_mem_cons] at hE
    have hled := (hp e s g c g₁ hs hg h₁).mono hE.1
    have hg₁ : g₁.Scoped := hled.steps.scoped (by rintro x rfl; exact hs) hg
    exact hled.trans (ih hE.2 (hled.final_lt hs) hg₁ h)

/-- The repetitions lead to `final`, which is made before them. -/
theorem parseRepetitions_led {body : ℕ → Graph → Except Panic (ℕ × Graph)} {min max : Int}
    {infiniteLoop : Bool} {final count i : ℕ}
    (hbody : ∀ s g f g', s < g.states.length → g.Scoped → body s g = .ok (f, g') → Led s L g f g')
    (hs : s < g.states.length) (hg : g.Scoped)
    (h : parseRepetitions body min max infiniteLoop final count i s g = .ok g') :
    Steps {s} {s, final} g.states.length L g g' ∧ ∃ w, Walk g'.edges s w final := by
  induction count generalizing s g i with
  | zero =>
    obtain rfl := Except.ok.inj h
    exact ⟨.null (.inl rfl) (.inl (.inr rfl)), [], g.createNull_walk s final⟩
  | succ count ih =>
    obtain ⟨⟨next, g₂⟩, h₂, h⟩ := bind_eq_ok.mp h
    have hlen := createNullIf_length (g := g) (decide (min ≤ i)) s final
    have hskip : Steps {s} {s, final} g.states.length L g
        (if decide (min ≤ i) then g.createNull s final else g) :=
      .nullIf _ (.inl rfl) (.inl (.inr rfl))
    have hg₁ : (if decide (min ≤ i) then g.createNull s final else g).Scoped := hg.createNullIf hs
    simp only [decide_eq_true_eq] at hlen hskip hg₁
    have hled := hbody _ _ _ _ (hlen ▸ hs) hg₁ h₂
    have hsteps := hled.steps
    have hnext := hled.among
    rw [hlen] at hsteps hnext
    have hg₂ : g₂.Scoped := hled.steps.scoped (by rintro x rfl; exact hlen ▸ hs) hg₁
    have hnext_lt : next < g₂.states.length := hled.final_lt (hlen ▸ hs)
    have hloop : Steps {s} {s, final} g.states.length L g₂
        (if infiniteLoop || decide (max < i) then g₂.createNull next s else g₂) :=
      .nullIf _ hnext (.inl (.inl rfl))
    have hlen₃ := createNullIf_length (g := g₂) (infiniteLoop || decide (max < i)) next s
    obtain ⟨hrest, w', hw'⟩ := ih (hlen₃ ▸ hnext_lt) (hg₂.createNullIf hnext_lt) h
    obtain ⟨w, hw⟩ := hled.path
    have hle := hled.steps.le
    refine ⟨?_, w ++ w', (hrest.walk (hloop.walk hw)).append hw'⟩
    refine ((hskip.trans (hsteps.mono (fun _ hx => .inl hx) (fun _ hx => .inl (.inl hx)) le_rfl
      fun _ h => h)).trans hloop).trans (hrest.mono ?_ ?_ (by omega) fun _ h => h)
    · rintro x rfl
      rw [hlen₃]
      exact hnext
    · rintro x (rfl | rfl)
      · rw [hlen₃]
        exact hnext.mono (fun _ hx => .inl (.inl hx)) le_rfl le_rfl
      · exact .inl (.inr rfl)

theorem parseSequence_led (hp : parse.Stepwise E) {es : List Expression} {minReps maxReps : Int}
    (hE : ∀ e ∈ es, ∀ l, E e l → L l) (hs : s < g.states.length) (hg : g.Scoped)
    (h : parseSequence parse es minReps maxReps s g = .ok (f, g')) : Led s L g f g' := by
  obtain ⟨g₁, h₁, h⟩ := bind_eq_ok.mp h
  obtain ⟨rfl, rfl⟩ := Prod.mk.inj (Except.ok.inj h)
  have hlen : (g.newState false false [] none).2.states.length = g.states.length + 1 :=
    Graph.newState_length ..
  obtain ⟨hsteps, hwalk⟩ := parseRepetitions_led (L := L) (fun _ _ _ _ hs hg h => parseBody_led hp hE hs hg h)
    (by omega) hg.newState h₁
  have hle := hsteps.le
  refine ⟨(ReflTransGen.single (.state g)).trans (hsteps.mono ?_ ?_ (by omega) fun _ h => h),
    .inr ⟨le_rfl, ?_⟩, hwalk⟩
  · exact fun _ hx => .inl hx
  · rintro x (rfl | rfl)
    · exact .inl rfl
    · exact .inr ⟨le_rfl, by rw [hlen]; exact Nat.lt_succ_self _⟩
  · show g.states.length < _
    omega

end Functions

/-! ## Inclusive or -/

/-- The copy of a transition that a step has laid is a step too; a null transition is not
copied. -/
theorem Graph.copy_of_laid (h : Laid A Z base n L t) (g : Graph) (p q : ℕ) :
    g.copy p q t false = if t.label = .null then g else g.create p q t.label false false := by
  obtain ⟨_, _, _, hinit, hcleanup, hscope⟩ := h
  simp only [copy, hinit, hcleanup, hscope, check, create]
  cases t.label <;> simp

theorem Steps.copy (h : Laid A' Z' base' n L t) (hp : Among A base g.states.length p)
    (hq : Among Z base g.states.length q) : Steps A Z base L g (g.copy p q t false) := by
  rw [Graph.copy_of_laid h]
  split
  · exact .refl
  · exact .single (.add h.label hp hq)

section Grid

variable (hAZ : ∀ x ∈ A, x ∈ Z) {stateMap : List (ℕ × ℕ)} {chain lhs rhs : List (Transition × ℕ)}

theorem stateCopy_steps (hbase : base ≤ g.states.length)
    (hmap : ∀ m ∈ stateMap, Among A base g.states.length m.2) (s : ℕ) :
    Steps A Z base L g (stateCopy stateMap g s).2.2 ∧
      Among A base (stateCopy stateMap g s).2.2.states.length (stateCopy stateMap g s).1 ∧
      ∀ m ∈ (stateCopy stateMap g s).2.1,
        Among A base (stateCopy stateMap g s).2.2.states.length m.2 := by
  rw [stateCopy]
  split
  · next s' hs' =>
    obtain ⟨pre, post, heq, _⟩ := List.lookup_eq_some_iff.mp hs'
    refine ⟨.refl, hmap (s, s') ?_, hmap⟩
    rw [heq]
    exact List.mem_append_right _ List.mem_cons_self
  · have hlen : (g.newState false false [] none).2.states.length = g.states.length + 1 :=
      Graph.newState_length ..
    have hnew : Among A base (g.newState false false [] none).2.states.length g.states.length :=
      .inr ⟨hbase, by omega⟩
    refine ⟨.single (.state g), hnew, ?_⟩
    rw [List.forall_mem_cons]
    exact ⟨hnew, fun m hm => (hmap m hm).grow (hlen ▸ Nat.le_succ _)⟩

theorem cloneTransition_steps (ht : Laid A' Z' base' n L t) (hp : Among A base g.states.length p)
    (hq : Among Z base g.states.length q) :
    Steps A Z base L g (cloneTransition g p q t) ∧
      ∃ c, (cloneTransition g p q t).transitions.getLast? = some c ∧ c.dest = q := by
  rw [cloneTransition]
  split
  · refine ⟨.null hp hq, ⟨p, q, .null, false, false, false⟩, ?_, rfl⟩
    rw [Graph.createNull, Graph.register_transitions, List.getLast?_concat]
  · next hnull =>
    refine ⟨.copy ht hp hq, ⟨p, q, t.label, false, false, false⟩, ?_, rfl⟩
    rw [Graph.copy_of_laid ht, if_neg hnull, Graph.create, Graph.register_transitions,
      List.getLast?_concat]

include hAZ

theorem Among.of_subset (h : Among A base n x) : Among Z base n x := h.imp_left (hAZ x)

theorem createTransitionChainCopy_steps (hbase : base ≤ g.states.length)
    (hmap : ∀ m ∈ stateMap, Among A base g.states.length m.2)
    (hchain : ∀ t ∈ chain, Laid A' Z' base' n L t.1) :
    Steps A Z base L g (createTransitionChainCopy chain stateMap g).2 ∧
      ∀ c ∈ (createTransitionChainCopy chain stateMap g).1,
        Among A base (createTransitionChainCopy chain stateMap g).2.states.length c.dest := by
  induction chain generalizing stateMap g with
  | nil => exact ⟨.refl, fun c hc => absurd hc List.not_mem_nil⟩
  | cons t chain ih =>
    rw [List.forall_mem_cons] at hchain
    simp only [createTransitionChainCopy]
    obtain ⟨hsteps₁, hsource, hmap₁⟩ :=
      stateCopy_steps (Z := Z) (L := L) hbase hmap t.1.source
    generalize stateCopy stateMap g t.1.source = r₁ at hsteps₁ hsource hmap₁ ⊢
    obtain ⟨x, stateMap₁, g₁⟩ := r₁
    obtain ⟨hsteps₂, hdest, hmap₂⟩ :=
      stateCopy_steps (Z := Z) (L := L) (hbase.trans hsteps₁.le) hmap₁ t.1.dest
    generalize stateCopy stateMap₁ g₁ t.1.dest = r₂ at hsteps₂ hdest hmap₂ ⊢
    obtain ⟨y, stateMap₂, g₂⟩ := r₂
    obtain ⟨hsteps₃, c, hlast, rfl⟩ := cloneTransition_steps hchain.1
      (hsource.grow hsteps₂.le) (Among.of_subset hAZ hdest)
    have hle₃ := hsteps₃.le
    obtain ⟨hsteps, hclone⟩ := ih ((hbase.trans hsteps₁.le).trans (hsteps₂.le.trans hle₃))
      (fun m hm => (hmap₂ m hm).grow hle₃) hchain.2
    simp only [hlast, Option.toList_some, List.singleton_append, List.forall_mem_cons]
    exact ⟨((hsteps₁.trans hsteps₂).trans hsteps₃).trans hsteps,
      hdest.grow (hle₃.trans hsteps.le), hclone⟩

theorem fillRow_steps {lastRow : Bool} {endState : ℕ} {cells : List (ℕ × Transition)}
    (ht : Laid A' Z' base' n L t) (hend : endState ∈ Z)
    (hcells : ∀ c ∈ cells, Among A base g.states.length c.1 ∧
      Among A base g.states.length c.2.dest) :
    Steps A Z base L g (fillRow t lastRow endState cells g) := by
  induction cells generalizing g with
  | nil => exact .refl
  | cons c rest ih =>
    obtain ⟨⟨habove, hdest⟩, hrest⟩ := List.forall_mem_cons.mp hcells
    simp only [fillRow]
    have hcopy : Steps A Z base L g (g.copy c.1 c.2.dest t false) :=
      .copy ht habove (Among.of_subset hAZ hdest)
    have hnull : Steps A Z base L (g.copy c.1 c.2.dest t false) _ :=
      .nullIf (lastRow || rest.isEmpty) (hdest.grow hcopy.le) (.inl hend)
    have hle := hcopy.le.trans hnull.le
    exact (hcopy.trans hnull).trans
      (ih fun c hc => ⟨(hrest c hc).1.grow hle, (hrest c hc).2.grow hle⟩)

theorem fillGrid_steps {rhsStart endState : ℕ} {row : List ℕ} (hend : endState ∈ Z)
    (hbase : base ≤ g.states.length) (hrow : ∀ x ∈ row, Among A base g.states.length x)
    (hlhs : ∀ t ∈ lhs, Laid A' A base' n L t.1 ∧ t.1.dest ∈ A)
    (hrhs : ∀ t ∈ rhs, Laid A' A base' n L t.1) :
    Steps A Z base L g (fillGrid rhs rhsStart endState lhs row g) := by
  induction lhs generalizing row g with
  | nil => exact .refl
  | cons t1 lhs ih =>
    obtain ⟨⟨ht1, hdest⟩, hlhs⟩ := List.forall_mem_cons.mp hlhs
    simp only [fillGrid]
    have hmap : ∀ m ∈ [(rhsStart, t1.1.dest)], Among A base g.states.length m.2 := by
      intro m hm
      obtain rfl := List.mem_singleton.mp hm
      exact .inl hdest
    obtain ⟨hcopy, hclone⟩ := createTransitionChainCopy_steps hAZ hbase hmap hrhs
    generalize createTransitionChainCopy rhs [(rhsStart, t1.1.dest)] g = r at hcopy hclone ⊢
    obtain ⟨rhsCopy, g₁⟩ := r
    have hfill : Steps A Z base L g₁
        (fillRow t1.1 lhs.isEmpty endState (row.zip rhsCopy) g₁) := by
      refine fillRow_steps hAZ ht1 hend ?_
      intro c hc
      obtain ⟨habove, hbelow⟩ := List.of_mem_zip (a := c.1) (b := c.2) hc
      exact ⟨(hrow _ habove).grow hcopy.le, hclone _ hbelow⟩
    refine (hcopy.trans hfill).trans (ih (hbase.trans (hcopy.le.trans hfill.le)) ?_ hlhs)
    intro x hx
    obtain ⟨c, hc, rfl⟩ := List.mem_map.mp hx
    exact (hclone c hc).grow hfill.le

end Grid

section Boolean

variable {parse : Operand} {E : Expression → Label → Prop} {suppress : Bool}
  {operation : Operation} {lhs rhs : Expression} {ls lf rs rf endState : ℕ}

/-- The states that the operands of an inclusive OR come to. -/
def Graph.crossed (g : Graph) (ls rs lf rf : ℕ) : Set ℕ :=
  {x | ∃ t, (t ∈ calculateReachableTransitionsBetween g ls lf ∨
    t ∈ calculateReachableTransitionsBetween g rs rf) ∧ t.1.dest = x}

theorem convertIncOrToExcOr_steps (suppress : Bool) (endState : ℕ)
    (hl : ∀ t ∈ calculateReachableTransitionsBetween g ls lf, Laid A Z base n L t.1)
    (hr : ∀ t ∈ calculateReachableTransitionsBetween g rs rf, Laid A Z base n L t.1) :
    Steps (g.crossed ls rs lf rf) (insert endState (g.crossed ls rs lf rf)) g.states.length L g
      (convertIncOrToExcOr suppress ls rs lf rf endState g) := by
  have hlaid : ∀ t : Transition × ℕ, Laid A Z base n L t.1 → t.1.dest ∈ g.crossed ls rs lf rf →
      Laid A (g.crossed ls rs lf rf) base n L t.1 :=
    fun t h hdest => ⟨h.source, .inl hdest, h.label, h.init, h.cleanup, h.inScope⟩
  rw [convertIncOrToExcOr]
  split
  · exact .refl
  · have hrow : ∀ x ∈ (calculateReachableTransitionsBetween g rs rf).map (·.1.dest),
        Among (g.crossed ls rs lf rf) g.states.length g.states.length x := by
      intro x hx
      obtain ⟨t, ht, rfl⟩ := List.mem_map.mp hx
      exact .inl ⟨t, .inr ht, rfl⟩
    have hlhs : ∀ t ∈ calculateReachableTransitionsBetween g ls lf,
        Laid A (g.crossed ls rs lf rf) base n L t.1 ∧ t.1.dest ∈ g.crossed ls rs lf rf := by
      intro t ht
      have hdest : t.1.dest ∈ g.crossed ls rs lf rf := ⟨t, .inl ht, rfl⟩
      exact ⟨hlaid t (hl t ht) hdest, hdest⟩
    have hrhs : ∀ t ∈ calculateReachableTransitionsBetween g rs rf,
        Laid A (g.crossed ls rs lf rf) base n L t.1 :=
      fun t ht => hlaid t (hr t ht) ⟨t, .inr ht, rfl⟩
    exact fillGrid_steps (fun x hx => .inr hx) (.inl rfl) le_rfl hrow hlhs hrhs

/-- Two new states, from which the operands of a boolean expression are parsed. -/
def Graph.forked (g : Graph) : Graph :=
  ((g.newState false false [] none).2.newState false false [] none).2

theorem Graph.forked_length : g.forked.states.length = g.states.length + 2 := by
  rw [forked, newState_length, newState_length]

theorem parseBoolean_ok (h : parseBoolean suppress parse operation lhs rhs s g = .ok (f, g')) :
    ∃ lf g₁ rf g₂, parse lhs g.states.length g.forked = .ok (lf, g₁) ∧
      parse rhs (g.states.length + 1) g₁ = .ok (rf, g₂) ∧ f = g₂.states.length ∧
      g' = if operation = .or then
          convertIncOrToExcOr suppress g.states.length (g.states.length + 1) lf rf g₂.states.length
            (joinOperands s g.states.length (g.states.length + 1) lf rf g₂)
        else joinOperands s g.states.length (g.states.length + 1) lf rf g₂ := by
  have hlen : (g.newState false false [] none).2.states.length = g.states.length + 1 :=
    Graph.newState_length ..
  have h' := h
  rw [parseBoolean] at h'
  obtain ⟨⟨lf, g₁⟩, hl, h'⟩ := bind_eq_ok.mp h'
  obtain ⟨⟨rf, g₂⟩, hr, _⟩ := bind_eq_ok.mp h'
  have hl' : parse lhs g.states.length g.forked = .ok (lf, g₁) := hl
  have hr' : parse rhs (g.states.length + 1) g₁ = .ok (rf, g₂) := by
    rw [← hlen]
    exact hr
  rw [parseBoolean_eq suppress operation hl' hr'] at h
  obtain ⟨rfl, rfl⟩ := Prod.mk.inj (Except.ok.inj h)
  exact ⟨lf, g₁, rf, g₂, hl', hr', rfl, rfl⟩

/-- The operands are parsed among new states. -/
theorem operands_led (hp : parse.Stepwise E) (hg : g.Scoped)
    (hl : parse lhs g.states.length g.forked = .ok (lf, g₁))
    (hr : parse rhs (g.states.length + 1) g₁ = .ok (rf, g₂)) :
    Led g.states.length (E lhs) g.forked lf g₁ ∧
      Led (g.states.length + 1) (E rhs) g₁ rf g₂ := by
  have hlen := g.forked_length
  have hg₀ : g.forked.Scoped := hg.newState.newState
  have hled := hp lhs _ _ lf g₁ (by omega) hg₀ hl
  have hle := hled.steps.le
  have hg₁ : g₁.Scoped := hled.steps.scoped (by rintro x rfl; omega) hg₀
  exact ⟨hled, hp rhs _ _ rf g₂ (by omega) hg₁ hr⟩

section Operands

variable (hl : Led g.states.length L g.forked lf g₁) (hr : Led (g.states.length + 1) L g₁ rf g₂)
include hl hr

theorem operands_steps : Steps ∅ ∅ g.states.length L g.forked g₁ ∧
    Steps ∅ ∅ g.states.length L g₁ g₂ := by
  have hlen := g.forked_length
  have hle := hl.steps.le
  have hl' : ∀ x ∈ ({g.states.length} : Set ℕ), Among ∅ g.states.length g.forked.states.length x := by
    rintro x rfl
    exact .inr ⟨le_rfl, by omega⟩
  have hr' : ∀ x ∈ ({g.states.length + 1} : Set ℕ), Among ∅ g.states.length g₁.states.length x := by
    rintro x rfl
    exact .inr ⟨by omega, by omega⟩
  exact ⟨hl.steps.mono hl' hl' (by omega) fun _ h => h, hr.steps.mono hr' hr' (by omega) fun _ h => h⟩

theorem operands_final : g.states.length ≤ lf ∧ lf < g₂.states.length ∧
    g.states.length ≤ rf ∧ rf < g₂.states.length := by
  have hlen := g.forked_length
  have hle := hl.steps.le
  have hle' := hr.steps.le
  have hlf : g.states.length ≤ lf ∧ lf < g₁.states.length := by
    obtain rfl | h := hl.final <;> omega
  have hrf : g.states.length ≤ rf ∧ rf < g₂.states.length := by
    obtain rfl | h := hr.final <;> omega
  omega

/-- Whatever leaves a new state was laid between new states. -/
theorem joined_laid (hs : s < g.states.length) (hg : g.Scoped)
    (ht : t ∈ (joinOperands s g.states.length (g.states.length + 1) lf rf g₂).transitions)
    (hsource : g.states.length ≤ t.source) :
    Laid ∅ ∅ g.states.length (g₂.states.length + 1) L t := by
  obtain ⟨hl', hr'⟩ := operands_steps hl hr
  obtain ⟨hlf, hlf', hrf, hrf'⟩ := operands_final hl hr
  obtain ⟨ts₁, hgrows₁, hts₁⟩ := hl'.laid
  obtain ⟨ts₂, hgrows₂, hts₂⟩ := hr'.laid
  have hfork : g.forked.transitions = g.transitions := rfl
  rw [(joinOperands_grows s g.states.length (g.states.length + 1) lf rf g₂).1.transitions,
    hgrows₂.transitions, hgrows₁.transitions, hfork] at ht
  simp only [List.mem_append] at ht
  obtain ((ht | ht) | ht) | ht := ht
  · exact absurd hsource (not_le_of_gt (hg t ht))
  · exact (hts₁ t ht).grow (hgrows₂.le.trans (Nat.le_succ _))
  · exact (hts₂ t ht).grow (Nat.le_succ _)
  · simp only [joints, List.mem_cons, List.not_mem_nil, or_false] at ht
    obtain rfl | rfl | rfl | rfl := ht
    · exact absurd hsource (not_le_of_gt hs)
    · exact absurd hsource (not_le_of_gt hs)
    · exact ⟨.inr ⟨hlf, hlf'.trans (Nat.lt_succ_self _)⟩,
        .inr ⟨hlf.trans hlf'.le, Nat.lt_succ_self _⟩, .inl rfl, rfl, rfl, rfl⟩
    · exact ⟨.inr ⟨hrf, hrf'.trans (Nat.lt_succ_self _)⟩,
        .inr ⟨hrf.trans hrf'.le, Nat.lt_succ_self _⟩, .inl rfl, rfl, rfl, rfl⟩

/-- So the walk along an operand stays among them. -/
theorem reachable_laid (hs : s < g.states.length) (hg : g.Scoped) {start : ℕ} (stop : ℕ)
    (hstart : g.states.length ≤ start) {t : Transition × ℕ}
    (ht : t ∈ calculateReachableTransitionsBetween
      (joinOperands s g.states.length (g.states.length + 1) lf rf g₂) start stop) :
    Laid ∅ ∅ g.states.length (g₂.states.length + 1) L t.1 := by
  have hclosed : ∀ t, Leaves (joinOperands s g.states.length (g.states.length + 1) lf rf g₂) stop
      (g.states.length ≤ ·) t → g.states.length ≤ t.1.dest := by
    rintro t ⟨hmem, hsource, _⟩
    obtain h | h := (joined_laid hl hr hs hg (List.fst_mem_of_mem_zipIdx hmem) hsource).dest
    · exact h.elim
    · exact h.1
  obtain ⟨hmem, hsource, _⟩ := calculateReachable_sound hclosed hstart ht
  exact joined_laid hl hr hs hg (List.fst_mem_of_mem_zipIdx hmem) hsource

theorem joinOperands_led (s : ℕ) :
    Led s L g g₂.states.length
      (joinOperands s g.states.length (g.states.length + 1) lf rf g₂) := by
  obtain ⟨hl', hr'⟩ := operands_steps hl hr
  obtain ⟨hlf, hlf', hrf, hrf'⟩ := operands_final hl hr
  have hlen := g.forked_length
  have hle := hl'.le
  have hle' := hr'.le
  obtain ⟨-, hlen'⟩ := joinOperands_grows s g.states.length (g.states.length + 1) lf rf g₂
  have hjoin : (((g₂.createNull s g.states.length).createNull s (g.states.length + 1)).newState
      false false [] none).1 = g₂.states.length := by simp [Graph.newState]
  have hnone : ∀ {n}, ∀ x ∈ (∅ : Set ℕ), Among {s} g.states.length n x := fun x hx => hx.elim
  have hfork : Steps {s} {s} g.states.length L g g.forked :=
    (ReflTransGen.single (.state g)).tail (.state _)
  have h₁ : Steps {s} {s} g.states.length L g g₂ :=
    (hfork.trans (hl'.mono hnone hnone le_rfl fun _ h => h)).trans
      (hr'.mono hnone hnone le_rfl fun _ h => h)
  have h₂ : Steps {s} {s} g.states.length L g₂
      ((g₂.createNull s g.states.length).createNull s (g.states.length + 1)) := by
    refine ReflTransGen.trans (Steps.null (.inl rfl) ?_) (Steps.null (.inl rfl) ?_)
    · exact .inr ⟨le_rfl, by omega⟩
    · exact .inr ⟨by omega, by rw [Graph.createNull_length]; omega⟩
  generalize hg₃ : (g₂.createNull s g.states.length).createNull s (g.states.length + 1) = g₃ at *
  have hlen₃ : g₃.states.length = g₂.states.length := by
    rw [← hg₃, Graph.createNull_length, Graph.createNull_length]
  have hlen₄ : (g₃.newState false false [] none).2.states.length = g₂.states.length + 1 := by
    rw [Graph.newState_length, hlen₃]
  have h₃ : Steps {s} {s} g.states.length L g₃ (joinOperands s g.states.length
      (g.states.length + 1) lf rf g₂) := by
    simp only [joinOperands, hg₃, hjoin]
    refine ((ReflTransGen.single (.state g₃)).trans (Steps.null ?_ ?_)).trans (Steps.null ?_ ?_)
    · exact .inr ⟨hlf, by omega⟩
    · exact .inr ⟨by omega, by omega⟩
    · exact .inr ⟨hrf, by rw [Graph.createNull_length]; omega⟩
    · exact .inr ⟨by omega, by rw [Graph.createNull_length]; omega⟩
  refine ⟨(h₁.trans h₂).trans h₃, .inr ⟨by omega, by omega⟩, ?_⟩
  obtain ⟨w, hw⟩ := hl.path
  have hedges : ∀ e ∈ (joints s g.states.length (g.states.length + 1) lf rf
      g₂.states.length).map Transition.edge, e ∈ (joinOperands s g.states.length
        (g.states.length + 1) lf rf g₂).edges := by
    intro e he
    rw [Graph.edges, (joinOperands_grows s g.states.length (g.states.length + 1) lf rf
      g₂).1.transitions, List.map_append]
    exact List.mem_append_right _ he
  have hbranch := hedges ⟨s, none, g.states.length⟩ List.mem_cons_self
  have hend := hedges ⟨lf, none, g₂.states.length⟩ (by simp [joints, Transition.edge, Label.letter])
  exact ⟨w, .eps_append hbranch ((h₃.walk (h₂.walk (hr'.walk hw))).append_eps hend)⟩

end Operands

theorem parseBoolean_led (hp : parse.Stepwise E) (hE : ∀ l, E lhs l ∨ E rhs l → L l)
    (hs : s < g.states.length) (hg : g.Scoped)
    (h : parseBoolean suppress parse operation lhs rhs s g = .ok (f, g')) : Led s L g f g' := by
  obtain ⟨lf, g₁, rf, g₂, hl, hr, rfl, rfl⟩ := parseBoolean_ok h
  obtain ⟨hl, hr⟩ := operands_led hp hg hl hr
  have hl : Led g.states.length L g.forked lf g₁ := hl.mono fun l hl => hE l (.inl hl)
  have hr : Led (g.states.length + 1) L g₁ rf g₂ := hr.mono fun l hr => hE l (.inr hr)
  have hjoin := joinOperands_led hl hr s
  split
  · obtain ⟨-, hlen⟩ := joinOperands_grows s g.states.length (g.states.length + 1) lf rf g₂
    have hlhs := fun t => reachable_laid hl hr hs hg (t := t) lf le_rfl
    have hrhs := fun t => reachable_laid hl hr hs hg (t := t) rf (Nat.le_succ _)
    -- what the operands come to is new, so the grid is laid among new states
    have hcrossed : ∀ x ∈ (joinOperands s g.states.length (g.states.length + 1) lf rf g₂).crossed
        g.states.length (g.states.length + 1) lf rf,
        Among {s} g.states.length (g₂.states.length + 1) x := by
      rintro x ⟨t, ht | ht, rfl⟩
      · exact (hlhs t ht).dest.imp_left False.elim
      · exact (hrhs t ht).dest.imp_left False.elim
    have hgrid := convertIncOrToExcOr_steps suppress g₂.states.length hlhs hrhs
    rw [← hlen] at hcrossed
    have hle : g.states.length ≤ (joinOperands s g.states.length (g.states.length + 1) lf rf
        g₂).states.length := hjoin.steps.le
    have hinsert : ∀ x ∈ insert g₂.states.length ((joinOperands s g.states.length
        (g.states.length + 1) lf rf g₂).crossed g.states.length (g.states.length + 1) lf rf),
        Among {s} g.states.length (joinOperands s g.states.length (g.states.length + 1) lf rf
          g₂).states.length x := by
      rintro x (rfl | hx)
      · exact hjoin.among
      · exact hcrossed x hx
    have hsteps := hgrid.mono hcrossed hinsert hle fun _ h => h
    obtain ⟨w, hw⟩ := hjoin.path
    exact ⟨hjoin.steps.trans hsteps, hjoin.among.grow hsteps.le, w, hsteps.walk hw⟩
  · exact hjoin

end Boolean

/-- Every expression is parsed stepwise. -/
theorem Parser.parse_led (P : Parser) (fuel : ℕ) :
    (P.operand fuel).Stepwise fun e l => l ∈ P.labels fuel e := by
  induction fuel with
  | zero =>
    intro e s g f g' _ _ h
    cases h
  | succ fuel ih =>
    intro e s g f g' hs hg h
    cases e with
    | nullExpr =>
      obtain ⟨rfl, rfl⟩ := Prod.mk.inj (Except.ok.inj h)
      exact .refl s _ g
    | assertionSite site =>
      obtain ⟨rfl, rfl⟩ := Prod.mk.inj (Except.ok.inj h)
      exact .event List.mem_cons_self
    | function ev =>
      obtain ⟨rfl, rfl⟩ := Prod.mk.inj (Except.ok.inj h)
      exact .event List.mem_cons_self
    | fieldAssign assign =>
      obtain ⟨rfl, rfl⟩ := Prod.mk.inj (Except.ok.inj h)
      exact .event List.mem_cons_self
    | sequence es minReps maxReps =>
      refine parseSequence_led ih ?_ hs hg h
      intro e he l hl
      exact List.mem_flatMap.mpr ⟨e, he, hl⟩
    | booleanExpr operation lhs rhs =>
      refine parseBoolean_led ih ?_ hs hg h
      intro l hl
      exact List.mem_append.mpr hl
    | subAutomaton id =>
      obtain ⟨_, _, h⟩ := bind_eq_ok.mp h
      simp only [labels]
      split at h
      · next hsub =>
        obtain ⟨rfl, rfl⟩ := Prod.mk.inj (Except.ok.inj h)
        rw [if_pos hsub]
        exact .event List.mem_cons_self
      · next hsub =>
        split at h
        · cases h
        · next a ha =>
          rw [if_neg hsub, ha]
          exact ih a.expression s g f g' hs hg h

/-- A parse that ends where it started has done nothing. -/
theorem Parser.parse_idle {P : Parser} {fuel : ℕ} {e : Expression} (hs : s < g.states.length)
    (hg : g.Scoped) (h : P.operand fuel e s g = .ok (s, g')) : g' = g := by
  induction fuel generalizing e with
  | zero => cases h
  | succ fuel ih =>
    cases e with
    | nullExpr => exact (Prod.mk.inj (Except.ok.inj h)).2.symm
    | assertionSite | function | fieldAssign =>
      exact absurd (Prod.mk.inj (Except.ok.inj h)).1.symm hs.ne
    | sequence es minReps maxReps =>
      have h : parseSequence (P.operand fuel) es minReps maxReps s g = .ok (s, g') := h
      obtain ⟨g₁, _, h⟩ := bind_eq_ok.mp h
      exact absurd (Prod.mk.inj (Except.ok.inj h)).1.symm hs.ne
    | booleanExpr operation lhs rhs =>
      have h : parseBoolean P.suppressInclusiveOr (P.operand fuel) operation lhs rhs s g =
        .ok (s, g') := h
      obtain ⟨lf, g₁, rf, g₂, hl, hr, hf, _⟩ := parseBoolean_ok h
      obtain ⟨hl, hr⟩ := operands_led (P.parse_led fuel) hg hl hr
      have hlen := g.forked_length
      have hle := hl.steps.le
      have hle' := hr.steps.le
      omega
    | subAutomaton id =>
      obtain ⟨_, _, h⟩ := bind_eq_ok.mp h
      split at h
      · exact absurd (Prod.mk.inj (Except.ok.inj h)).1.symm hs.ne
      · split at h
        · cases h
        · exact ih h

end Tesla.Automata
