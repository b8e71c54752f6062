/-
# `Tesla.Automata.Link` — what a linked automaton accepts

With a beginning and an end, all events strict, the linked automaton is three
pieces in a row, and its only accepting state is the last:

    0 ──beginning──▶ 1 ⟶ ⟦expression⟧ ⟶ f ──end──▶ ✓

so it accepts `{beginning} · paths · {end}` (`link_accepts`).  Every word that is
meant is accepted (`meaning_le`); that nothing else is depends on the expression.
-/
import Tesla.Automata.Language

namespace Tesla.Automata

open Lib Computability

variable {P : Parser} {D : AutomataMap} {n fuel : ℕ} {e : Expression} {L : Language Letter}
  {r : Runs Letter} {g g' : Graph} {s f : ℕ} {ts : List Transition}

/-! ## What is meant is accepted -/

theorem mapM_cons_eq_some {α β : Type*} {f : α → Option β} {x : α} {xs : List α} {ys : List β} :
    (x :: xs).mapM f = some ys ↔ ∃ y ys', f x = some y ∧ xs.mapM f = some ys' ∧ ys = y :: ys' := by
  rw [List.mapM_cons]
  constructor
  · intro h
    obtain ⟨y, hy, h⟩ := Option.bind_eq_some_iff.mp h
    obtain ⟨ys', hys', h⟩ := Option.bind_eq_some_iff.mp h
    exact ⟨y, ys', hy, hys', (Option.some.inj h).symm⟩
  · rintro ⟨y, ys', hy, hys', rfl⟩
    rw [hy, hys']
    rfl

theorem body_lawful {es : List Expression} {rs : List (Runs Letter)}
    (hrs : es.mapM (P.runs n) = some rs) : (Runs.body rs).Lawful := by
  obtain ⟨f, g', ts, _, hbuilt⟩ :=
    parseBody_built (s := 0) (g := Parser.alone) (P.parse_realises n) hrs (by decide) Parser.alone_scoped
  exact hbuilt.lawful

theorem repeats_le_repeated {minReps maxReps : Int} (hr : r.Lawful) (hL : L ≤ r.paths)
    (hle : minReps ≤ maxReps) : repeats L minReps maxReps ≤ (r.repeated minReps maxReps).paths := by
  by_cases hmax : 0 ≤ maxReps
  · rw [Runs.repeated_paths hr hle hmax]
    exact (repeats_mono hL _ _).trans le_sup_left
  · rintro w ⟨k, ⟨_, hk⟩, _⟩
    have hinf : maxReps ≠ infiniteRepetitions := by
      rintro rfl
      exact hmax (by decide)
    have := hk.resolve_left hinf
    omega

/-- The parts of a sequence, each with what is built for it. -/
theorem mapM_meaning_le {R : Expression → Option (Runs Letter)}
    {M : Expression → Option (Language Letter)}
    (hMR : ∀ e L, M e = some L →
      ∃ r, R e = some r ∧ L ≤ r.paths ∧ ∀ a ∈ r.letters, a.strict = true)
    {es : List Expression} {Ls : List (Language Letter)} (hLs : es.mapM M = some Ls) :
    ∃ rs, es.mapM R = some rs ∧ Ls.prod ≤ (Runs.body rs).paths ∧
      ∀ a ∈ (Runs.body rs).letters, a.strict = true := by
  induction es generalizing Ls with
  | nil =>
    rw [List.mapM_nil] at hLs
    obtain rfl := Option.some.inj hLs
    exact ⟨[], rfl, le_rfl, fun a ha => absurd ha List.not_mem_nil⟩
  | cons e es ih =>
    obtain ⟨L, Ls', hL, hLs', rfl⟩ := mapM_cons_eq_some.mp hLs
    obtain ⟨r, hr, hle, hstrict⟩ := hMR e L hL
    obtain ⟨rs, hrs, hle', hstrict'⟩ := ih hLs'
    refine ⟨r :: rs, mapM_cons_eq_some.mpr ⟨r, rs, hr, hrs, rfl⟩, ?_, ?_⟩
    · rw [List.prod_cons]
      exact mul_le_mul' hle hle'
    · intro a ha
      obtain ha | ha := List.mem_append.mp ha
      · exact hstrict a ha
      · exact hstrict' a ha

/-- An expression with a meaning is built, with every word of its meaning. -/
theorem meaning_le (xorOnly : Bool) (d : AutomatonDescription) (hL : meaning D n e = some L) :
    ∃ r, (NFA.linker xorOnly d D).runs n e = some r ∧ L ≤ r.paths ∧
      ∀ a ∈ r.letters, a.strict = true := by
  induction n generalizing e L with
  | zero => cases hL
  | succ n ih =>
    have hevent : ∀ a : Letter, (if a.strict then some ({[a]} : Language Letter) else none) = some L →
        L = {[a]} ∧ a.strict = true := by
      intro a ha
      split at ha
      · next h => exact ⟨(Option.some.inj ha).symm, h⟩
      · cases ha
    cases e with
    | nullExpr =>
      obtain rfl := Option.some.inj hL
      exact ⟨.null, rfl, le_rfl, fun a ha => absurd ha List.not_mem_nil⟩
    | assertionSite site =>
      obtain ⟨rfl, h⟩ := hevent .assertSite hL
      exact ⟨.event _, rfl, le_rfl, fun a ha => List.mem_singleton.mp ha ▸ h⟩
    | function ev =>
      obtain ⟨rfl, h⟩ := hevent (.fn ev) hL
      exact ⟨.event _, rfl, le_rfl, fun a ha => List.mem_singleton.mp ha ▸ h⟩
    | fieldAssign assign =>
      obtain ⟨rfl, h⟩ := hevent (.fieldAssign assign) hL
      exact ⟨.event _, rfl, le_rfl, fun a ha => List.mem_singleton.mp ha ▸ h⟩
    | subAutomaton id =>
      obtain ⟨a, ha, hL⟩ := Option.bind_eq_some_iff.mp hL
      obtain ⟨r, hr, hle, hstrict⟩ := ih hL
      exact ⟨r, Option.bind_eq_some_iff.mpr ⟨a, ha, hr⟩, hle, hstrict⟩
    | sequence es minReps maxReps =>
      rw [meaning] at hL
      split at hL
      · next hmin =>
        obtain ⟨Ls, hLs, hL⟩ := Option.bind_eq_some_iff.mp hL
        obtain rfl := Option.some.inj hL
        obtain ⟨rs, hrs, hle, hstrict⟩ := mapM_meaning_le (fun _ _ h => ih h) hLs
        exact ⟨_, Option.bind_eq_some_iff.mpr ⟨rs, hrs, rfl⟩,
          repeats_le_repeated (body_lawful hrs) hle hmin, hstrict⟩
      · cases hL
    | booleanExpr operation lhs rhs =>
      cases operation with
      | and | or => cases hL
      | xor =>
        obtain ⟨Ll, hl, hL⟩ := Option.bind_eq_some_iff.mp hL
        obtain ⟨Lr, hr, hL⟩ := Option.bind_eq_some_iff.mp hL
        obtain rfl := Option.some.inj hL
        obtain ⟨rl, hrl, hle, hstrict⟩ := ih hl
        obtain ⟨rr, hrr, hle', hstrict'⟩ := ih hr
        refine ⟨rl.choice rr, Option.bind_eq_some_iff.mpr ⟨rl, hrl,
          Option.bind_eq_some_iff.mpr ⟨rr, hrr, rfl⟩⟩, add_le_add hle hle', ?_⟩
        intro a ha
        obtain ha | ha := List.mem_append.mp ha
        · exact hstrict a ha
        · exact hstrict' a ha

/-! ## What cannot go wrong -/

/-- What `comesBack` says of a sub-automaton. -/
def Runs.Back (r : Runs Letter) (b : Option Bool) : Prop :=
  r.idle = b.isNone ∧ (b.getD false = false → r.back = 1)

theorem body_back {R : Expression → Option (Runs Letter)} {M : Expression → Option (Language Letter)}
    {c : Expression → Option Bool}
    (hc : ∀ e L r, M e = some L → R e = some r → r.Back (c e))
    {es : List Expression} {Ls : List (Language Letter)} {rs : List (Runs Letter)}
    (hLs : es.mapM M = some Ls) (hrs : es.mapM R = some rs) :
    (Runs.body rs).Back (es.findSome? c) := by
  induction es generalizing Ls rs with
  | nil =>
    obtain rfl := Option.some.inj hrs
    exact ⟨rfl, fun _ => rfl⟩
  | cons e es ih =>
    obtain ⟨L, Ls, hL, hLs', rfl⟩ := mapM_cons_eq_some.mp hLs
    obtain ⟨r, rs, hr, hrs', rfl⟩ := mapM_cons_eq_some.mp hrs
    obtain ⟨hidle, hback⟩ := hc e L r hL hr
    obtain ⟨hidle', hback'⟩ := ih hLs' hrs'
    rw [List.findSome?_cons]
    cases hce : c e with
    | none =>
      rw [hce] at hidle
      refine ⟨?_, ?_⟩
      · show (r.idle && (Runs.body rs).idle) = _
        rw [hidle, hidle']
        rfl
      · intro h
        show (if r.idle then (Runs.body rs).back else r.back) = 1
        rw [hidle]
        exact hback' h
    | some b =>
      rw [hce] at hidle hback
      refine ⟨?_, ?_⟩
      · show (r.idle && (Runs.body rs).idle) = _
        rw [hidle]
        rfl
      · intro h
        show (if r.idle then (Runs.body rs).back else r.back) = 1
        rw [hidle]
        exact hback h

theorem repeated_back {minReps maxReps : Int} {b : Bool} (hle : minReps ≤ maxReps)
    (hr : b = false → r.back = 1) :
    (r.repeated minReps maxReps).Back (some (maxReps = infiniteRepetitions || 0 < maxReps && b)) := by
  refine ⟨rfl, ?_⟩
  intro h
  simp only [Option.getD_some, Bool.or_eq_false_iff, decide_eq_false_iff_not] at h
  obtain ⟨hinf, h⟩ := h
  by_cases hmax : 0 < maxReps
  · have hlooped : decide (maxReps < ((0 : ℕ) : Int)) = false := decide_eq_false (by omega)
    obtain ⟨n, hn⟩ : ∃ n, (max minReps maxReps).toNat = n + 1 :=
      ⟨(max minReps maxReps).toNat - 1, by omega⟩
    have hb : b = false := by simpa [hmax] using h
    simp only [Runs.repeated, hinf, if_false, decide_false, Bool.false_or, hn, Runs.chainBack,
      hlooped, hr hb]
    exact mul_one _
  · have hn : (max minReps maxReps).toNat = 0 := by omega
    simp only [Runs.repeated, hinf, if_false, hn, Runs.chainBack]

theorem runs_back {xorOnly : Bool} {d : AutomatonDescription} (hL : meaning D n e = some L)
    (hr : (NFA.linker xorOnly d D).runs n e = some r) : r.Back (e.comesBack D n) := by
  induction n generalizing e L r with
  | zero => cases hL
  | succ n ih =>
    cases e with
    | nullExpr =>
      obtain rfl := Option.some.inj hr
      exact ⟨rfl, fun _ => rfl⟩
    | assertionSite _ | function _ | fieldAssign _ =>
      obtain rfl := Option.some.inj hr
      exact ⟨rfl, fun _ => rfl⟩
    | subAutomaton id =>
      obtain ⟨a, ha, hL⟩ := Option.bind_eq_some_iff.mp hL
      obtain ⟨a', ha', hr⟩ := Option.bind_eq_some_iff.mp hr
      obtain rfl := Option.some.inj (ha.symm.trans ha')
      rw [Expression.comesBack, ha]
      exact ih hL hr
    | sequence es minReps maxReps =>
      rw [meaning] at hL
      split at hL
      · next hle =>
        obtain ⟨Ls, hLs, _⟩ := Option.bind_eq_some_iff.mp hL
        obtain ⟨rs, hrs, hr⟩ := Option.bind_eq_some_iff.mp hr
        obtain rfl := Option.some.inj hr
        exact repeated_back hle (body_back (fun _ _ _ => ih) hLs hrs).2
      · cases hL
    | booleanExpr operation lhs rhs =>
      cases operation with
      | and | or => cases hL
      | xor =>
        obtain ⟨rl, _, hr⟩ := Option.bind_eq_some_iff.mp hr
        obtain ⟨rr, _, hr⟩ := Option.bind_eq_some_iff.mp hr
        obtain rfl := Option.some.inj hr
        exact ⟨rfl, fun _ => rfl⟩

theorem body_paths_le {R : Expression → Option (Runs Letter)}
    {M : Expression → Option (Language Letter)} {es : List Expression}
    (hMR : ∀ e ∈ es, ∀ L r, M e = some L → R e = some r → r.paths ≤ L)
    {Ls : List (Language Letter)} {rs : List (Runs Letter)}
    (hLs : es.mapM M = some Ls) (hrs : es.mapM R = some rs) : (Runs.body rs).paths ≤ Ls.prod := by
  induction es generalizing Ls rs with
  | nil =>
    obtain rfl := Option.some.inj hLs
    obtain rfl := Option.some.inj hrs
    exact le_rfl
  | cons e es ih =>
    obtain ⟨L, Ls, hL, hLs', rfl⟩ := mapM_cons_eq_some.mp hLs
    obtain ⟨r, rs, hr, hrs', rfl⟩ := mapM_cons_eq_some.mp hrs
    rw [List.prod_cons]
    exact mul_le_mul' (hMR e List.mem_cons_self L r hL hr)
      (ih (fun e he => hMR e (List.mem_cons_of_mem _ he)) hLs' hrs')

/-- The early ends of a repetition are meant when there are none, or none has come back. -/
theorem early_le {minReps maxReps : Int} {b : Bool} (hs : (endsEarly minReps maxReps && b) = false)
    (hr : b = false → r.back = 1) :
    r.early minReps maxReps ≤ repeats r.paths minReps maxReps := by
  cases b with
  | false => exact Runs.early_le_repeats (hr rfl) minReps maxReps
  | true =>
    rintro w ⟨hinf, k, hmin, hmax, _⟩
    rw [Bool.and_true, endsEarly] at hs
    split at hs
    · next h => exact absurd (hinf h) (of_decide_eq_false hs)
    · next h =>
      have := of_decide_eq_false hs
      have := hmax.resolve_left h
      omega

theorem paths_le_of_steady {xorOnly : Bool} {d : AutomatonDescription}
    (hs : e.steady D n = true) (hL : meaning D n e = some L)
    (hr : (NFA.linker xorOnly d D).runs n e = some r) : r.paths ≤ L := by
  induction n generalizing e L r with
  | zero => cases hL
  | succ n ih =>
    have hevent : ∀ a : Letter, (if a.strict then some ({[a]} : Language Letter) else none) = some L →
        L = {[a]} := by
      intro a ha
      split at ha
      · exact (Option.some.inj ha).symm
      · cases ha
    cases e with
    | nullExpr =>
      obtain rfl := Option.some.inj hr
      obtain rfl := Option.some.inj hL
      exact le_rfl
    | assertionSite site =>
      obtain rfl := Option.some.inj hr
      exact (hevent .assertSite hL).ge
    | function ev =>
      obtain rfl := Option.some.inj hr
      exact (hevent (.fn ev) hL).ge
    | fieldAssign assign =>
      obtain rfl := Option.some.inj hr
      exact (hevent (.fieldAssign assign) hL).ge
    | subAutomaton id =>
      obtain ⟨a, ha, hL⟩ := Option.bind_eq_some_iff.mp hL
      obtain ⟨a', ha', hr⟩ := Option.bind_eq_some_iff.mp hr
      obtain rfl := Option.some.inj (ha.symm.trans ha')
      rw [Expression.steady, ha] at hs
      exact ih hs hL hr
    | sequence es minReps maxReps =>
      rw [meaning] at hL
      split at hL
      · next hle =>
        obtain ⟨Ls, hLs, hL⟩ := Option.bind_eq_some_iff.mp hL
        obtain ⟨rs, hrs, hr⟩ := Option.bind_eq_some_iff.mp hr
        obtain rfl := Option.some.inj hL
        obtain rfl := Option.some.inj hr
        simp only [Expression.steady, Bool.and_eq_true, Bool.not_eq_true', List.all_eq_true,
          decide_eq_true_eq] at hs
        obtain ⟨⟨hes, hmax⟩, hearly⟩ := hs
        have hbody := body_paths_le (fun e he L r hL hr => ih (hes e he) hL hr) hLs hrs
        rw [Runs.repeated_paths (body_lawful hrs) hle hmax]
        refine sup_le (repeats_mono hbody _ _) ?_
        exact (early_le hearly (body_back (fun _ _ _ => runs_back) hLs hrs).2).trans
          (repeats_mono hbody _ _)
      · cases hL
    | booleanExpr operation lhs rhs =>
      cases operation with
      | and | or => cases hL
      | xor =>
        obtain ⟨Ll, hl, hL⟩ := Option.bind_eq_some_iff.mp hL
        obtain ⟨Lr, hrt, hL⟩ := Option.bind_eq_some_iff.mp hL
        obtain ⟨rl, hrl, hr⟩ := Option.bind_eq_some_iff.mp hr
        obtain ⟨rr, hrr, hr⟩ := Option.bind_eq_some_iff.mp hr
        obtain rfl := Option.some.inj hL
        obtain rfl := Option.some.inj hr
        simp only [Expression.steady, Bool.and_eq_true] at hs
        exact add_le_add (ih hs.1 hl hrl) (ih hs.2 hrt hrr)

/-! ## Out-of-scope events -/

/-- Assertion sites aside, what a transition reads is strict. -/
def Transition.Strict (t : Transition) : Prop := ∀ a ∈ t.label.letter, a.strict = true

/-- An out-of-scope copy is made of what is neither strict nor an initialisation. -/
theorem mem_outOfScope {t : Transition} {noted : List Transition}
    (ht : t ∈ Parser.outOfScope noted ts) :
    t ∈ noted ∨ t ∈ ts ∧ t.label.isStrict = false ∧ t.init = false := by
  induction ts generalizing noted with
  | nil => exact .inl ht
  | cons u ts ih =>
    rw [Parser.outOfScope] at ht
    split at ht
    · exact (ih ht).imp_right fun h => ⟨List.mem_cons_of_mem _ h.1, h.2⟩
    · next hnot =>
      obtain h | h := ih ht
      · obtain h | h := List.mem_append.mp h
        · exact .inl h
        · obtain rfl := List.mem_singleton.mp h
          refine .inr ⟨List.mem_cons_self .., ?_⟩
          simp only [Bool.or_eq_true, not_or, Bool.not_eq_true] at hnot
          exact ⟨hnot.1.2, hnot.2⟩
      · exact .inr ⟨List.mem_cons_of_mem _ h.1, h.2⟩

/-- Strict events get no out-of-scope transitions. -/
theorem addOutOfScope_of_strict (h : ∀ t ∈ g.transitions, t.Strict) :
    Parser.addOutOfScope s f g = g := by
  rw [Parser.addOutOfScope]
  refine List.foldlRecOn (motive := (· = g)) _ _ rfl ?_
  intro g' hg' t ht
  subst hg'
  obtain h' | ⟨hmem, hlabel, _⟩ := mem_outOfScope ht
  · exact absurd h' List.not_mem_nil
  · have hstrict := h t hmem
    split
    · rfl
    · rfl
    · rfl
    · next assign heq =>
      rw [Transition.Strict, heq] at hstrict
      rw [heq, Label.isStrict] at hlabel
      have := hstrict (.fieldAssign assign) rfl
      rw [Letter.strict, hlabel] at this
      cases this
    · next ev heq =>
      rw [Transition.Strict, heq] at hstrict
      rw [heq, Label.isStrict] at hlabel
      have := hstrict (.fn ev) rfl
      rw [Letter.strict, hlabel] at this
      cases this

/-! ## The accepting state -/

theorem Graph.isAccepting_eq (g : Graph) (p : ℕ) :
    g.isAccepting p = (g.flags[p]?).any (·.2.1) := by
  simp only [isAccepting, flags, List.getElem?_map]
  cases g.states[p]? <;> rfl

theorem Graph.isStart_eq (g : Graph) (p : ℕ) : g.isStart p = (g.flags[p]?).any (·.1) := by
  simp only [isStart, flags, List.getElem?_map]
  cases g.states[p]? <;> rfl

/-- One accepting state, made last. -/
theorem isAccepting_iff {F : List (Bool × Bool × List ℕ)} {x : Bool × Bool × List ℕ}
    (hg : g.flags = F ++ [x]) (hF : ∀ y ∈ F, y.2.1 = false) (hx : x.2.1 = true) (p : ℕ) :
    g.isAccepting p = true ↔ p = F.length := by
  rw [Graph.isAccepting_eq, hg, List.getElem?_append]
  constructor
  · intro h
    split at h
    · obtain ⟨y, hy, hy'⟩ := (Option.any_eq_true _ _).mp h
      rw [hF y (List.mem_of_getElem? hy)] at hy'
      cases hy'
    · next hlt =>
      obtain ⟨y, hy, _⟩ := (Option.any_eq_true _ _).mp h
      have := (List.getElem?_eq_some_iff.mp hy).1
      simp only [List.length_singleton] at this
      omega
  · rintro rfl
    rw [if_neg (by omega), Nat.sub_self]
    exact hx

/-- One starting state, made first. -/
theorem isStart_iff {F : List (Bool × Bool × List ℕ)} {x : Bool × Bool × List ℕ}
    (hg : g.flags = x :: F) (hF : ∀ y ∈ F, y.1 = false) (hx : x.1 = true) (p : ℕ) :
    g.isStart p = true ↔ p = 0 := by
  rw [Graph.isStart_eq, hg]
  cases p with
  | zero => simpa using hx
  | succ p =>
    simp only [List.getElem?_cons_succ, Nat.succ_ne_zero, iff_false]
    intro h
    obtain ⟨y, hy, hy'⟩ := (Option.any_eq_true _ _).mp h
    rw [hF y (List.mem_of_getElem? hy)] at hy'
    cases hy'

theorem toεNFA_accepts {p q : ℕ} (hstart : ∀ s, g.isStart s = true ↔ s = p)
    (haccept : ∀ s, g.isAccepting s = true ↔ s = q) : g.toεNFA.accepts = walks g.edges p q := by
  ext w
  rw [Graph.toεNFA, mem_accepts_ofEdges]
  constructor
  · rintro ⟨p', hp, q', hq, hw⟩
    obtain rfl := (hstart p').mp hp
    obtain rfl := (haccept q').mp hq
    exact hw
  · exact fun hw => ⟨p, (hstart p).mpr rfl, q, (haccept q).mpr rfl, hw⟩

/-! ## Linked automata -/

/-- Two events around a piece. -/
theorem bounded_accept {x y : Letter} {E : List (Edge ℕ Letter)} {n₂ : ℕ}
    (h : Piece 2 n₂ E 1 f r.paths r.back) (hf : Own 1 2 n₂ f) :
    walks ([⟨0, some x, 1⟩] ++ E ++ [⟨f, some y, n₂⟩]) 0 n₂ = {[x]} * r.paths * {[y]} := by
  have hle := h.le
  have hlt := h.own_lt hf
  have hb : Piece 1 2 [⟨0, some x, 1⟩] 0 1 (letterOf (some x)) 1 :=
    .edge (by omega) (by omega) (by omega) (some x)
  have he : Piece n₂ (n₂ + 1) [⟨f, some y, n₂⟩] f n₂ (letterOf (some y)) 1 :=
    .edge (by omega) hlt (by omega) (some y)
  have hfirst := hb.series h (.inr ⟨le_rfl, by omega⟩) (hf.imp_right fun h h' => by
    obtain rfl | h' := h' <;> omega)
  have hown : Own 0 1 n₂ f := by
    obtain rfl | hf := hf
    · exact .inr ⟨le_rfl, by omega⟩
    · exact .inr ⟨by omega, hf.2⟩
  have hall := hfirst.series he hown (.inr fun h' => by obtain rfl | h' := h' <;> omega)
  exact hall.accept

theorem link_accepts {xorOnly : Bool} {d : AutomatonDescription} {use : Usage}
    {b e : Expression} {x y : Letter} (hb : use.beginning = some b) (he : use.ending = some e)
    (hx : b.event = some x) (hy : e.event = some y) (hxs : x.strict = true) (hys : y.strict = true)
    (hr : (NFA.linker xorOnly d D).runs fuel d.expression = some r)
    (hstrict : ∀ a ∈ r.letters, a.strict = true) :
    ∃ N, NFA.link xorOnly d (some use) D fuel = .ok N ∧
      N.toεNFA.accepts = {[x]} * r.paths * {[y]} := by
  cases fuel with
  | zero => cases hr
  | succ fuel =>
    let P := NFA.linker xorOnly d D
    set g₀ := (Graph.empty.newState true false [] (some d.argument.length)).2 with hg₀
    have hlen₀ : g₀.states.length = 1 := rfl
    have hflags₀ : g₀.flags = [(true, false, [])] := rfl
    obtain ⟨lb, -, hlb, hpb⟩ := P.parse_event hx fuel 0 true false g₀
    obtain ⟨hfinal₁, hlen₁, htrans₁, hflags₁⟩ := parseEvent_spec (s := 0) lb true false g₀
    set g₁ := (parseEvent lb 0 true false g₀).2
    rw [hlen₀] at hfinal₁ hlen₁ htrans₁
    have hscoped : g₁.Scoped := by
      intro t ht
      rw [htrans₁] at ht
      obtain rfl := List.mem_singleton.mp ht
      show 0 < g₁.states.length
      omega
    obtain ⟨f, g₂, ts, hparse, hbuilt⟩ :=
      P.parse_realises (fuel + 1) d.expression r hr 1 g₁ (by omega) hscoped
    obtain ⟨le, -, hle, hpe⟩ := P.parse_event hy fuel f false true g₂
    obtain ⟨hfinal₃, hlen₃, htrans₃, hflags₃⟩ := parseEvent_spec (s := f) le false true g₂
    set g₃ := (parseEvent le f false true g₂).2
    have htrans : g₃.transitions = [⟨0, 1, lb, true, false, false⟩] ++ ts ++
        [⟨f, g₂.states.length, le, false, true, false⟩] := by
      rw [htrans₃, hbuilt.grows.transitions, htrans₁]
      rfl
    have hall : ∀ t ∈ g₃.transitions, t.Strict := by
      intro t ht a ha
      rw [htrans] at ht
      simp only [List.mem_append, List.mem_singleton] at ht
      obtain (rfl | ht) | rfl := ht
      · rw [hlb] at ha
        exact Option.mem_some_iff.mp ha ▸ hxs
      · exact hstrict a (hbuilt.letters t ht a ha)
      · rw [hle] at ha
        exact Option.mem_some_iff.mp ha ▸ hys
    refine ⟨g₃, ?_, ?_⟩
    · have hpair₁ : parseEvent lb 0 true false g₀ = (1, g₁) := Prod.ext hfinal₁ rfl
      have hpair₃ : parseEvent le f false true g₂ = (g₂.states.length, g₃) := Prod.ext hfinal₃ rfl
      have hexpr : (NFA.linker xorOnly d D).parse (fuel + 1) d.expression 1 false false g₁ =
        .ok (f, g₂) := hparse
      have hend : (NFA.linker xorOnly d D).parse (fuel + 1) e f false true g₂ =
        .ok (g₂.states.length, g₃) := hpe.trans (congrArg _ hpair₃)
      rw [hpair₁] at hpb
      simp only [NFA.link, Parser.parseAutomaton, Option.bind_some, hb, he]
      rw [show (NFA.linker xorOnly d D).automaton = d from rfl, ← hg₀,
        show (Graph.empty.newState true false [] (some d.argument.length)).1 = 0 from rfl, hpb]
      simp only [bind, Except.bind, hexpr, hend, addOutOfScope_of_strict hall]
      rfl
    · have hpiece := hbuilt.piece
      have hown := hbuilt.own
      rw [hlen₁] at hpiece hown
      have hedges : g₃.edges = [⟨0, some x, 1⟩] ++ ts.map Transition.edge ++
          [⟨f, some y, g₂.states.length⟩] := by
        rw [Graph.edges, htrans, List.map_append, List.map_append]
        simp only [List.map_cons, List.map_nil, Transition.edge, hlb, hle]
      rw [← bounded_accept hpiece hown, ← hedges]
      have hflags : g₃.flags = (true, false, []) :: ((false, false, []) ::
          List.replicate (g₂.states.length - g₁.states.length) (false, false, []) ++
            [(false, true, [])]) := by
        rw [hflags₃, hbuilt.grows.flags, hflags₁, hflags₀]
        rfl
      refine toεNFA_accepts (isStart_iff hflags ?_ rfl) fun q => ?_
      · simp only [List.mem_append, List.mem_cons, List.mem_replicate, List.not_mem_nil, or_false]
        rintro z ((rfl | ⟨_, rfl⟩) | rfl) <;> rfl
      · have hle := hbuilt.grows.le
        rw [isAccepting_iff (hflags.trans (List.cons_append ..).symm) ?_ rfl q]
        · simp only [List.length_cons, List.length_replicate]
          omega
        · simp only [List.mem_cons, List.mem_replicate]
          rintro z (rfl | rfl | ⟨_, rfl⟩) <;> rfl

theorem le_of_bounded_eq {x y : Letter} {M : Language Letter}
    (h : ({[x]} * L * {[y]} : Language Letter) = {[x]} * M * {[y]}) : L ≤ M := by
  intro w hw
  have hmem : [x] ++ w ++ [y] ∈ ({[x]} * L * {[y]} : Language Letter) :=
    Language.append_mem_mul (Language.append_mem_mul rfl hw) rfl
  rw [h] at hmem
  obtain ⟨u, hu, _, rfl, heq⟩ := Language.mem_mul.mp hmem
  obtain ⟨_, rfl, v, hv, rfl⟩ := Language.mem_mul.mp hu
  obtain rfl := List.append_cancel_left (List.append_cancel_right heq)
  exact hv

/-- Linking succeeds.  The automaton accepts what is meant, and nothing else if and
only if the runs that leave a repetition early are themselves meant.  This is so when
no repetition that can end early begins with what comes back to its start. -/
theorem accepts_meaning_iff {xorOnly : Bool} {d : AutomatonDescription} {use : Usage}
    {b e : Expression} {x y : Letter} (hL : meaning D n d.expression = some L)
    (hb : use.beginning = some b) (he : use.ending = some e) (hx : b.event = some x)
    (hy : e.event = some y) (hxs : x.strict = true) (hys : y.strict = true) (hfuel : n ≤ fuel) :
    ∃ N, NFA.link xorOnly d (some use) D fuel = .ok N ∧
      (N.toεNFA.accepts = {[x]} * L * {[y]} ↔
        ∀ r, (NFA.linker xorOnly d D).runs n d.expression = some r → r.paths ≤ L) ∧
      (d.expression.steady D n = true → N.toεNFA.accepts = {[x]} * L * {[y]}) := by
  obtain ⟨r, hr, hle, hstrict⟩ := meaning_le xorOnly d hL
  obtain ⟨N, hN, haccepts⟩ :=
    link_accepts hb he hx hy hxs hys (Parser.runs_mono hr hfuel) hstrict
  refine ⟨N, hN, ⟨?_, ?_⟩, ?_⟩
  · intro heq r' hr'
    rw [haccepts] at heq
    obtain rfl := Option.some.inj (hr.symm.trans hr')
    exact le_of_bounded_eq heq
  · intro h
    rw [haccepts, le_antisymm (h r hr) hle]
  · intro hsteady
    rw [haccepts, le_antisymm (paths_le_of_steady hsteady hL hr) hle]

/-! `x` at least once, then `y`: as it stands, and with all of it optional. -/

def loopThenCall : Expression :=
  .sequence [.sequence [.function (Parser.callTo "x")] 1 infiniteRepetitions,
    .function (Parser.callTo "y")] 1 1

def optionalLoop : AutomatonDescription :=
  ⟨⟨some "optionalLoop", none⟩, .global,
    .sequence [.sequence [.function (Parser.callTo "x")] 1 infiniteRepetitions,
      .function (Parser.callTo "y")] 0 1, []⟩

def withinCall : Usage :=
  ⟨⟨some "optionalLoop", none⟩, some (.function (Parser.callTo "enter")),
    some (.function (Parser.callTo "leave"))⟩

theorem accepts_meaning_iff_loopThenCall :
    ∃ L N, meaning (fun _ => none) 3 loopThenCall = some L ∧
      NFA.link false { optionalLoop with expression := loopThenCall } (some withinCall)
        (fun _ => none) 5 = .ok N ∧
      N.toεNFA.accepts = {[Parser.called "enter"]} * L * {[Parser.called "leave"]} := by
  obtain ⟨L, hL⟩ : ∃ L, meaning (fun _ => none) 3 loopThenCall = some L := ⟨_, rfl⟩
  have hb : withinCall.beginning = some (.function (Parser.callTo "enter")) := rfl
  have he : withinCall.ending = some (.function (Parser.callTo "leave")) := rfl
  obtain ⟨N, hN, _, h⟩ :=
    @accepts_meaning_iff _ 3 5 L false { optionalLoop with expression := loopThenCall } _ _ _ _ _ hL
      hb he rfl rfl rfl rfl (by omega)
  exact ⟨L, N, hL, hN, h (by decide)⟩

/-- Whatever is meant and not empty ends with `y`. -/
theorem mem_optionalLoop {w : List Letter}
    (hw : w ∈ repeats (repeats (({[Parser.called "x"]} : Language Letter) * 1) 1
      infiniteRepetitions * ({[Parser.called "y"]} * 1)) 0 1) :
    w = [] ∨ Parser.called "y" ∈ w := by
  obtain ⟨k, ⟨_, hk⟩, hw⟩ := hw
  cases k with
  | zero => exact .inl ((Language.mem_one w).mp hw)
  | succ k =>
    rw [pow_succ] at hw
    obtain ⟨u, _, v, hv, rfl⟩ := Language.mem_mul.mp hw
    obtain ⟨v₁, _, v₂, hv₂, rfl⟩ := Language.mem_mul.mp hv
    obtain ⟨_, rfl, v₃, _, rfl⟩ := Language.mem_mul.mp hv₂
    exact .inr (by simp)

/-- What is built for one round of it. -/
def optionalLoopRound : Runs Letter :=
  Runs.body [(Runs.body [.event (Parser.called "x")]).repeated 1 infiniteRepetitions,
    .event (Parser.called "y")]

/-- The round may be left after `x`, which has come back to its start. -/
theorem mem_optionalLoopRound : [Parser.called "x"] ∈ (optionalLoopRound.repeated 0 1).paths := by
  have hrs : [.sequence [.function (Parser.callTo "x")] 1 infiniteRepetitions,
      .function (Parser.callTo "y")].mapM ((NFA.linker false optionalLoop fun _ => none).runs 2) =
    some [(Runs.body [.event (Parser.called "x")]).repeated 1 infiniteRepetitions,
      .event (Parser.called "y")] := rfl
  have hback : [Parser.called "x"] ∈ (({[Parser.called "x"]} : Language Letter) * 1 * 1)∗ * 1 := by
    have hle : ({[Parser.called "x"]} : Language Letter) ≤ {[Parser.called "x"]}∗ := le_kstar
    rw [mul_one, mul_one, mul_one]
    exact hle rfl
  rw [Runs.repeated_paths (r := optionalLoopRound) (body_lawful hrs) (by decide) (by decide)]
  refine .inr ⟨fun h => absurd h (by decide), 0, le_rfl, .inr (by decide), ?_⟩
  rw [pow_zero, one_mul]
  exact hback

/-- Entering, one `x` and leaving is accepted, though `y` is missing: the loop goes
back to the state in which everything can be left out. -/
theorem optional_loop_accepts_more :
    ∃ L N, meaning (fun _ => none) 3 optionalLoop.expression = some L ∧
      NFA.link false optionalLoop (some withinCall) (fun _ => none) 3 = .ok N ∧
      [Parser.called "enter"] ++ [Parser.called "x"] ++ [Parser.called "leave"] ∈
        N.toεNFA.accepts ∧
      [Parser.called "enter"] ++ [Parser.called "x"] ++ [Parser.called "leave"] ∉
        ({[Parser.called "enter"]} * L * {[Parser.called "leave"]} : Language Letter) := by
  have hL : meaning (fun _ => none) 3 optionalLoop.expression =
    some (repeats (repeats (({[Parser.called "x"]} : Language Letter) * 1) 1
      infiniteRepetitions * ({[Parser.called "y"]} * 1)) 0 1) := rfl
  have hruns : (NFA.linker false optionalLoop fun _ => none).runs 3 optionalLoop.expression =
    some (optionalLoopRound.repeated 0 1) := rfl
  obtain ⟨r, hr, _, hstrict⟩ := meaning_le false optionalLoop hL
  obtain rfl := Option.some.inj (hruns.symm.trans hr)
  have hb : withinCall.beginning = some (.function (Parser.callTo "enter")) := rfl
  have he : withinCall.ending = some (.function (Parser.callTo "leave")) := rfl
  obtain ⟨N, hN, haccepts⟩ := link_accepts hb he rfl rfl rfl rfl hr hstrict
  refine ⟨_, N, hL, hN, ?_, ?_⟩
  · rw [haccepts]
    exact Language.append_mem_mul (Language.append_mem_mul rfl mem_optionalLoopRound) rfl
  · intro hmem
    obtain ⟨u, hu, _, rfl, heq⟩ := Language.mem_mul.mp hmem
    obtain ⟨_, rfl, w, hw, rfl⟩ := Language.mem_mul.mp hu
    obtain rfl := List.append_cancel_left (List.append_cancel_right heq)
    obtain h | h := mem_optionalLoop hw
    · cases h
    · revert h
      decide

end Tesla.Automata
