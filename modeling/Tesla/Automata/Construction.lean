/-
# `Tesla.Automata.Construction` — each parse adds a piece

What a call of the parser does to the graph:

    Grows    transitions are appended; new states are plain
    Built    the new transitions are a piece that reads `Runs`

One lemma for each function of the parser, each from the lemmas about its parts;
`Realises` says of the recursive call what the function above it needs.
-/
import Tesla.Automata.Meaning

namespace Tesla.Automata

open Lib Computability

variable {g g' g₁ g₂ : Graph} {ts ts' : List Transition} {s c f : ℕ} {r r' : Runs Letter}

/-! ## Growth -/

structure Grows (g g' : Graph) (ts : List Transition) : Prop where
  le : g.states.length ≤ g'.states.length
  transitions : g'.transitions = g.transitions ++ ts
  flags : g'.flags =
    g.flags ++ List.replicate (g'.states.length - g.states.length) (false, false, [])

theorem Grows.refl (g : Graph) : Grows g g [] := ⟨le_rfl, by simp, by simp⟩

theorem Grows.trans (h : Grows g g₁ ts) (h' : Grows g₁ g' ts') : Grows g g' (ts ++ ts') := by
  refine ⟨h.le.trans h'.le, ?_, ?_⟩
  · rw [h'.transitions, h.transitions, List.append_assoc]
  · rw [h'.flags, h.flags, List.append_assoc, List.replicate_append_replicate]
    have := h.le
    have := h'.le
    congr 2
    omega

theorem Graph.newState_length (start accept : Bool) (name : List ℕ) (refCount : Option ℕ) :
    (g.newState start accept name refCount).2.states.length = g.states.length + 1 := by
  simp [newState]

theorem Graph.newState_flags (start accept : Bool) (name : List ℕ) (refCount : Option ℕ) :
    (g.newState start accept name refCount).2.flags = g.flags ++ [(start, accept, name)] := by
  simp [newState, flags]

theorem Grows.newState (g : Graph) : Grows g (g.newState false false [] none).2 [] := by
  refine ⟨?_, by simp [Graph.newState], ?_⟩
  · rw [Graph.newState_length]
    omega
  · rw [Graph.newState_flags, Graph.newState_length, Nat.add_sub_cancel_left]
    rfl

theorem Grows.register (g : Graph) (t : Transition) : Grows g (g.register t) [t] :=
  ⟨by simp, by simp, by simp⟩

theorem Grows.createNull (g : Graph) (p q : ℕ) :
    Grows g (g.createNull p q) [⟨p, q, .null, false, false, false⟩] := .register g _

@[simp] theorem Graph.createNull_length (p q : ℕ) :
    (g.createNull p q).states.length = g.states.length := register_length

/-- A null transition that is made on some condition. -/
theorem Grows.createNullIf (g : Graph) (b : Bool) (p q : ℕ) :
    Grows g (if b then g.createNull p q else g)
      (if b then [⟨p, q, .null, false, false, false⟩] else []) := by
  cases b with
  | false => exact .refl g
  | true => exact .createNull g p q

theorem createNullIf_length (b : Bool) (p q : ℕ) :
    (if b then g.createNull p q else g).states.length = g.states.length := by
  cases b <;> simp

/-! ## Sources -/

/-- Transitions leave states that exist. -/
def Graph.Scoped (g : Graph) : Prop := ∀ t ∈ g.transitions, t.source < g.states.length

theorem Graph.Scoped.grows (hg : g.Scoped) (h : Grows g g' ts)
    (hts : ∀ t ∈ ts, t.source < g'.states.length) : g'.Scoped := by
  intro t ht
  rw [h.transitions, List.mem_append] at ht
  obtain ht | ht := ht
  · exact (hg t ht).trans_le h.le
  · exact hts t ht

theorem Graph.Scoped.newState (hg : g.Scoped) : (g.newState false false [] none).2.Scoped :=
  hg.grows (.newState g) fun _ ht => absurd ht List.not_mem_nil

theorem Graph.Scoped.createNull (hg : g.Scoped) {p q : ℕ} (hp : p < g.states.length) :
    (g.createNull p q).Scoped := by
  refine hg.grows (.createNull g p q) fun _ ht => ?_
  obtain rfl := List.mem_singleton.mp ht
  simpa using hp

theorem Graph.Scoped.createNullIf (hg : g.Scoped) {b : Bool} {p q : ℕ}
    (hp : p < g.states.length) : (if b then g.createNull p q else g).Scoped := by
  cases b with
  | false => exact hg
  | true => exact hg.createNull hp

/-! ## Pieces -/

/-- The letters of transitions are among these. -/
def LettersIn (ts : List Transition) (letters : List Letter) : Prop :=
  ∀ t ∈ ts, ∀ a ∈ t.label.letter, a ∈ letters

structure Built (g g' : Graph) (ts : List Transition) (s f : ℕ) (r : Runs Letter) : Prop where
  grows : Grows g g' ts
  letters : LettersIn ts r.letters
  piece : Piece g.states.length g'.states.length (ts.map Transition.edge) s f r.paths r.back
  own : Own s g.states.length g'.states.length f
  idle : r.idle = true ↔ f = s

theorem LettersIn.append {letters letters' : List Letter} (h : LettersIn ts letters)
    (h' : LettersIn ts' letters') : LettersIn (ts ++ ts') (letters ++ letters') := by
  intro t ht a ha
  obtain ht | ht := List.mem_append.mp ht
  · exact List.mem_append_left _ (h t ht a ha)
  · exact List.mem_append_right _ (h' t ht a ha)

theorem LettersIn.mono {letters letters' : List Letter} (h : LettersIn ts letters)
    (hsub : ∀ a ∈ letters, a ∈ letters') : LettersIn ts letters' :=
  fun t ht a ha => hsub a (h t ht a ha)

theorem Built.lt (h : Built g g' ts s f r) : f < g'.states.length := h.piece.own_lt h.own

theorem Built.lawful (h : Built g g' ts s f r) : r.Lawful :=
  ⟨h.piece.one_le_back, h.piece.back_mul_accept⟩

theorem Built.scoped (h : Built g g' ts s f r) (hg : g.Scoped) : g'.Scoped :=
  hg.grows h.grows fun _ ht => h.piece.own_lt (h.piece.src _ (List.mem_map_of_mem ht))

theorem Built.null (hs : s < g.states.length) : Built g g [] s s .null :=
  ⟨.refl g, fun _ ht => absurd ht List.not_mem_nil, .nil hs, .inl rfl, by simp [Runs.null]⟩

theorem Built.after (h : Built g g₁ ts s c r) (h' : Built g₁ g' ts' c f r') :
    Built g g' (ts ++ ts') s f (r.after r') := by
  have hs := h.piece.lt
  have hle := h.piece.le
  have hf : f = c ∨ ¬ Own s g.states.length g₁.states.length f := by
    refine h'.own.imp_right fun hb => ?_
    rintro (rfl | hb')
    · omega
    · omega
  have hpiece := h.piece.series h'.piece h.own hf
  have hback : (if c = s then r'.back else r.back) = (r.after r').back := by
    simp only [Runs.after, h.idle]
  rw [hback, ← List.map_append] at hpiece
  refine ⟨h.grows.trans h'.grows, h.letters.append h'.letters, hpiece, ?_, ?_⟩
  · obtain rfl | hb := h'.own
    · exact h.own.imp_right fun hb => ⟨hb.1, hb.2.trans_le h'.piece.le⟩
    · exact .inr ⟨hle.trans hb.1, hb.2⟩
  · simp only [Runs.after, Bool.and_eq_true, h.idle, h'.idle]
    constructor
    · rintro ⟨rfl, rfl⟩
      rfl
    · rintro rfl
      obtain rfl | hf := hf
      · exact ⟨rfl, rfl⟩
      · exact absurd (.inl rfl) hf

/-! ## Events -/

theorem parseEvent_spec (label : Label) (init cleanup : Bool) (g : Graph) :
    (parseEvent label s init cleanup g).1 = g.states.length ∧
      (parseEvent label s init cleanup g).2.states.length = g.states.length + 1 ∧
      (parseEvent label s init cleanup g).2.transitions =
        g.transitions ++ [⟨s, g.states.length, label, init, cleanup, false⟩] ∧
      (parseEvent label s init cleanup g).2.flags = g.flags ++ [(false, cleanup, [])] := by
  simp only [parseEvent, Graph.create, Graph.register_length, Graph.register_transitions,
    Graph.register_flags, Graph.newState_length, Graph.newState_flags]
  exact ⟨rfl, trivial, rfl, trivial⟩

theorem Built.event {label : Label} {a : Letter} (ha : label.letter = some a)
    (hs : s < g.states.length) :
    Built g (parseEvent label s false false g).2 [⟨s, g.states.length, label, false, false, false⟩]
      s g.states.length (.event a) := by
  obtain ⟨_, hlen, htrans, hflags⟩ := parseEvent_spec (s := s) label false false g
  refine ⟨⟨?_, htrans, ?_⟩, ?_, ?_, ?_, ?_⟩
  · omega
  · rw [hflags, hlen, Nat.add_sub_cancel_left]
    rfl
  · intro t ht b hb
    obtain rfl := List.mem_singleton.mp ht
    rw [ha] at hb
    obtain rfl := Option.mem_some_iff.mp hb
    exact List.mem_singleton.mpr rfl
  · rw [hlen]
    simp only [List.map_cons, List.map_nil, Transition.edge, ha]
    exact Piece.edge (Nat.le_succ _) hs (by omega) (some a)
  · exact .inr ⟨le_rfl, by omega⟩
  · simp only [Runs.event, Bool.false_eq_true, false_iff]
    omega

/-! ## Sequences -/

/-- What the recursive calls do: they succeed and build what `R` says. -/
def Realises (parse : Operand) (R : Expression → Option (Runs Letter)) : Prop :=
  ∀ e r, R e = some r → ∀ s g, s < g.states.length → g.Scoped →
    ∃ f g' ts, parse e s g = .ok (f, g') ∧ Built g g' ts s f r

variable {parse : Operand} {R : Expression → Option (Runs Letter)}

theorem parseBody_built (hp : Realises parse R) {es : List Expression} {rs : List (Runs Letter)}
    (hrs : es.mapM R = some rs) (hs : s < g.states.length) (hg : g.Scoped) :
    ∃ f g' ts, parseBody parse es s g = .ok (f, g') ∧ Built g g' ts s f (Runs.body rs) := by
  induction es generalizing rs s g with
  | nil =>
    rw [List.mapM_nil] at hrs
    obtain rfl := Option.some.inj hrs
    exact ⟨s, g, [], rfl, .null hs⟩
  | cons e es ih =>
    rw [List.mapM_cons] at hrs
    obtain ⟨r, hr, hrs⟩ := Option.bind_eq_some_iff.mp hrs
    obtain ⟨rs', hrs', hrs⟩ := Option.bind_eq_some_iff.mp hrs
    obtain rfl := Option.some.inj hrs
    obtain ⟨c, g₁, ts, hparse, hbuilt⟩ := hp e r hr s g hs hg
    obtain ⟨f, g', ts', hparse', hbuilt'⟩ := ih hrs' hbuilt.lt (hbuilt.scoped hg)
    refine ⟨f, g', ts ++ ts', ?_, hbuilt.after hbuilt'⟩
    rw [parseBody, hparse]
    exact hparse'

theorem Runs.chainBack_of_one {looped : ℕ → Bool} (hpaths : r.paths = 1) (hback : r.back = 1)
    (count i : ℕ) : r.chainBack looped count i = 1 := by
  induction count generalizing i with
  | zero => rfl
  | succ count ih =>
    rw [chainBack, ih, hpaths, hback, Piece.roundsOf]
    split
    · rw [mul_one, mul_one, kstar_one]
    · rw [mul_one]

/-- The loop over repetitions, from the `i`-th on. -/
theorem parseRepetitions_built {body : ℕ → Graph → Except Panic (ℕ × Graph)}
    (hbody : ∀ s g, s < g.states.length → g.Scoped →
      ∃ c g' ts, body s g = .ok (c, g') ∧ Built g g' ts s c r)
    (min max : Int) (infiniteLoop : Bool) {final : ℕ} (count i : ℕ)
    (hs : s < g.states.length) (hf : final < g.states.length) (hfs : final ≠ s) (hg : g.Scoped) :
    ∃ g' ts, parseRepetitions body min max infiniteLoop final count i s g = .ok g' ∧
      Grows g g' ts ∧ LettersIn ts r.letters ∧
      Piece g.states.length g'.states.length (ts.map Transition.edge) s final
        (r.chainPaths (fun i => min ≤ i) (fun i => infiniteLoop || max < i) count i)
        (r.chainBack (fun i => infiniteLoop || max < i) count i) := by
  induction count generalizing i s g with
  | zero =>
    refine ⟨_, _, rfl, .createNull g s final, ?_, ?_⟩
    · intro t ht a ha
      obtain rfl := List.mem_singleton.mp ht
      cases ha
    · rw [Graph.createNull_length]
      exact Piece.edge le_rfl hs hfs none
  | succ count ih =>
    set skipped : Bool := decide (min ≤ i)
    set looped : Bool := infiniteLoop || decide (max < i)
    have hlen := createNullIf_length (g := g) skipped s final
    have hg₀ : (if skipped then g.createNull s final else g).Scoped := hg.createNullIf hs
    obtain ⟨c, g₁, ts₁, hparse, hbuilt⟩ :=
      hbody s (if skipped then g.createNull s final else g) (by rwa [hlen]) hg₀
    have hlen₁ := createNullIf_length (g := g₁) looped c s
    have hfc : final ≠ c := by
      obtain rfl | hb := hbuilt.own
      · exact hfs
      · omega
    have hle := hbuilt.piece.le
    obtain ⟨g', ts₂, hparse', hgrows, hletters, hpiece⟩ :=
      ih (i + 1) (s := c) (g := if looped then g₁.createNull c s else g₁)
        (by rw [hlen₁]; exact hbuilt.lt) (by omega) hfc
        ((hbuilt.scoped hg₀).createNullIf hbuilt.lt)
    have hnull : ∀ (b : Bool) (p q : ℕ),
        LettersIn (if b then [⟨p, q, .null, false, false, false⟩] else []) [] := by
      intro b p q t ht a ha
      cases b with
      | false => exact absurd ht List.not_mem_nil
      | true =>
        obtain rfl := List.mem_singleton.mp ht
        cases ha
    refine ⟨g', _, ?_, ((Grows.createNullIf g skipped s final).trans hbuilt.grows).trans
      ((Grows.createNullIf g₁ looped c s).trans hgrows), ?_, ?_⟩
    · rw [parseRepetitions, show (if min ≤ (i : Int) then g.createNull s final else g) =
        if skipped then g.createNull s final else g by simp [skipped], hparse]
      exact hparse'
    · exact (((hnull _ _ _).append hbuilt.letters).append
        ((hnull _ _ _).append hletters)).mono (by simp)
    · rw [hlen₁] at hpiece
      have hp := hbuilt.piece
      rw [hlen] at hp
      have hrep := Piece.repetition skipped looped hp hpiece (by rw [← hlen]; exact hbuilt.own) hf
        hfs fun hcs => ?_
      · refine hrep.congr fun e => ?_
        have hedges : ∀ (b : Bool) (p q : ℕ),
            (if b then [(⟨p, q, .null, false, false, false⟩ : Transition)] else []).map
              Transition.edge = if b then [⟨p, none, q⟩] else [] := by
          intro b p q
          cases b <;> rfl
        simp only [Piece.repetitionEdges, List.map_append, hedges, List.mem_append]
        tauto
      · have hidle := hbuilt.piece
        subst hcs
        exact Runs.chainBack_of_one hidle.of_idle.2.1 hidle.of_idle.2.2 _ _

theorem parseSequence_built (hp : Realises parse R) {es : List Expression}
    {rs : List (Runs Letter)} (hrs : es.mapM R = some rs) (minReps maxReps : Int)
    (hs : s < g.states.length) (hg : g.Scoped) :
    ∃ f g' ts, parseSequence parse es minReps maxReps s g = .ok (f, g') ∧
      Built g g' ts s f ((Runs.body rs).repeated minReps maxReps) := by
  have hlen := Graph.newState_length (g := g) false false [] none
  obtain ⟨g', ts, hparse, hgrows, hletters, hpiece⟩ :=
    parseRepetitions_built (g := (g.newState false false [] none).2)
      (fun s g => parseBody_built (s := s) (g := g) hp hrs) minReps
      (if maxReps = infiniteRepetitions then 1 else maxReps) (maxReps = infiniteRepetitions)
      (Max.max minReps (if maxReps = infiniteRepetitions then 1 else maxReps)).toNat 0
      (show s < _ by omega) (show g.states.length < _ by omega) (by omega) hg.newState
  have hle := hgrows.le
  rw [hlen] at hpiece hle
  refine ⟨g.states.length, g', ts, ?_, (Grows.newState g).trans hgrows, hletters,
    hpiece.weaken (Nat.le_succ _) hs, .inr ⟨le_rfl, by omega⟩, ?_⟩
  · rw [parseSequence]
    simp only [Graph.newState] at hparse ⊢
    rw [hparse]
    rfl
  · simp only [Runs.repeated, Bool.false_eq_true, false_iff]
    omega

/-! ## Forks -/

/-- The end of a boolean expression: the fork, and the new state that joins it. -/
def joinOperands (branch lhsStart rhsStart lhsFinal rhsFinal : ℕ) (g : Graph) : Graph :=
  let g := (g.createNull branch lhsStart).createNull branch rhsStart
  let (join, g) := g.newState false false [] none
  (g.createNull lhsFinal join).createNull rhsFinal join

/-- Its transitions. -/
def joints (branch lhsStart rhsStart lhsFinal rhsFinal join : ℕ) : List Transition :=
  [⟨branch, lhsStart, .null, false, false, false⟩, ⟨branch, rhsStart, .null, false, false, false⟩,
    ⟨lhsFinal, join, .null, false, false, false⟩, ⟨rhsFinal, join, .null, false, false, false⟩]

theorem parseBoolean_eq (suppress : Bool) (operation : Operation) {lhs rhs : Expression}
    {lf rf : ℕ}
    (hl : parse lhs g.states.length
      ((g.newState false false [] none).2.newState false false [] none).2 = .ok (lf, g₁))
    (hr : parse rhs (g.states.length + 1) g₁ = .ok (rf, g₂)) :
    parseBoolean suppress parse operation lhs rhs s g = .ok (g₂.states.length,
      if operation = .or then
        convertIncOrToExcOr suppress g.states.length (g.states.length + 1) lf rf g₂.states.length
          (joinOperands s g.states.length (g.states.length + 1) lf rf g₂)
      else joinOperands s g.states.length (g.states.length + 1) lf rf g₂) := by
  have hlen : (g.newState false false [] none).2.states.length = g.states.length + 1 :=
    Graph.newState_length ..
  have hjoin : (((g₂.createNull s g.states.length).createNull s (g.states.length + 1)).newState
      false false [] none).1 = g₂.states.length := by simp [Graph.newState]
  simp only [parseBoolean]
  rw [show (g.newState false false [] none).1 = g.states.length from rfl,
    show ((g.newState false false [] none).2.newState false false [] none).1 =
      g.states.length + 1 from hlen, hl]
  simp only [bind, Except.bind, hr, joinOperands, hjoin]
  cases operation <;> rfl

theorem joinOperands_grows (branch ls rs lf rf : ℕ) (g : Graph) :
    Grows g (joinOperands branch ls rs lf rf g) (joints branch ls rs lf rf g.states.length) ∧
      (joinOperands branch ls rs lf rf g).states.length = g.states.length + 1 := by
  have hjoin : (((g.createNull branch ls).createNull branch rs).newState
      false false [] none).1 = g.states.length := by simp [Graph.newState]
  refine ⟨?_, ?_⟩
  · have h := (((((Grows.createNull g branch ls).trans (.createNull _ branch rs)).trans
      (.newState _)).trans (.createNull _ lf g.states.length)).trans
      (.createNull _ rf g.states.length))
    simp only [joinOperands, hjoin]
    exact h
  · simp [joinOperands, Graph.newState_length]

/-- The operands of a boolean expression, each from a new state. -/
theorem operands_built (hp : Realises parse R) {lhs rhs : Expression}
    (hl : R lhs = some r) (hr : R rhs = some r') (hg : g.Scoped) :
    ∃ lf rf g₁ g₂ ts ts',
      parse lhs g.states.length
        ((g.newState false false [] none).2.newState false false [] none).2 = .ok (lf, g₁) ∧
      parse rhs (g.states.length + 1) g₁ = .ok (rf, g₂) ∧
      Built ((g.newState false false [] none).2.newState false false [] none).2 g₁ ts
        g.states.length lf r ∧
      Built g₁ g₂ ts' (g.states.length + 1) rf r' := by
  have hlen : ((g.newState false false [] none).2.newState false false [] none).2.states.length =
      g.states.length + 2 := by simp [Graph.newState_length]
  have hg₀ := hg.newState.newState
  obtain ⟨lf, g₁, ts, hparse, hbuilt⟩ := hp lhs r hl g.states.length _ (by omega) hg₀
  have hle := hbuilt.piece.le
  obtain ⟨rf, g₂, ts', hparse', hbuilt'⟩ := hp rhs r' hr (g.states.length + 1) g₁ (by omega)
    (hbuilt.scoped hg₀)
  exact ⟨lf, rf, g₁, g₂, ts, ts', hparse, hparse', hbuilt, hbuilt'⟩

theorem Built.choice {lf rf : ℕ}
    (hl : Built ((g.newState false false [] none).2.newState false false [] none).2 g₁ ts
      g.states.length lf r)
    (hr : Built g₁ g₂ ts' (g.states.length + 1) rf r') (hs : s < g.states.length) :
    Built g (joinOperands s g.states.length (g.states.length + 1) lf rf g₂)
      (ts ++ ts' ++ joints s g.states.length (g.states.length + 1) lf rf g₂.states.length)
      s g₂.states.length (r.choice r') := by
  have hlen : ((g.newState false false [] none).2.newState false false [] none).2.states.length =
      g.states.length + 2 := by simp [Graph.newState_length]
  obtain ⟨hgrows, hlen'⟩ :=
    joinOperands_grows s g.states.length (g.states.length + 1) lf rf g₂
  have hpl := hl.piece
  have hol := hl.own
  rw [hlen] at hpl hol
  have hle := hpl.le
  have hle' := hr.piece.le
  refine ⟨?_, ?_, ?_, .inr ⟨by omega, by omega⟩, ?_⟩
  · exact (((Grows.newState g).trans (.newState _)).trans hl.grows).trans hr.grows |>.trans hgrows
  · have hnull : LettersIn (joints s g.states.length (g.states.length + 1) lf rf
        g₂.states.length) [] := by
      intro t ht a ha
      simp only [joints, List.mem_cons, List.not_mem_nil, or_false] at ht
      obtain rfl | rfl | rfl | rfl := ht <;> cases ha
    exact ((hl.letters.append hr.letters).append hnull).mono (by simp [Runs.choice])
  · rw [hlen', List.map_append, List.map_append]
    exact Piece.choice hpl hol hr.piece hr.own hs
  · simp only [Runs.choice, Bool.false_eq_true, false_iff]
    omega

end Tesla.Automata
