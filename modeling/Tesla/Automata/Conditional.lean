/-
# `Tesla.Automata.Conditional` — conditional mode

When no event is strict, an automaton that has begun may see its events in any order
and still end: every event has an out-of-scope transition that stays in the state after
the beginning, and the end event has one that leads from there to the end.

    0 ──beginning──▶ 1 ──u──▶ 1 ──end──▶ n

For this the copy that is made for the end must be that of the end itself, so no event
of the expression may equal it.  In the DFA the same word leads to a set with `n` in it,
and such a set has been made by a transition that goes to `n` directly
(`isAccepting_of_mem`).
-/
import Tesla.Automata.Bounds

namespace Tesla.Automata

open Lib

variable {P : Parser} {fuel s f n : ℕ} {N D : Graph} {t c : Transition} {ts : List Transition}
  {L : Label → Prop} {lb le l : Label} {a x y : Letter} {u w : List Letter}

/-- The symbol of a call or an assignment that is not strict. -/
def Expression.conditional : Expression → Option Letter
  | .function ev => if ev.strict.getD true then none else some (.fn ev)
  | .fieldAssign assign => if assign.strict.getD true then none else some (.fieldAssign assign)
  | .booleanExpr .. | .sequence .. | .nullExpr | .assertionSite _ | .subAutomaton _ => none

theorem walk_loops {E : List (Edge ℕ Letter)} (h : ∀ a ∈ u, ⟨s, some a, s⟩ ∈ E) : Walk E s u s := by
  induction u with
  | nil => exact .nil s
  | cons a u ih =>
    rw [List.forall_mem_cons] at h
    exact (Walk.letter h.1).append (ih h.2)

theorem accepts_of_reached (hstart : N.isStart 0 = true) (hs : s ∈ N.reached w)
    (haccept : N.isAccepting s = true) : w ∈ N.toεNFA.accepts := by
  rw [Graph.toεNFA, mem_accepts_ofEdges]
  exact ⟨0, hstart, s, haccept, Graph.mem_reached.mp hs⟩

namespace Bounded

/-- An out-of-scope copy stays after the beginning, or leads to the end. -/
theorem stray_edge (h : Bounded L lb le f n ts N)
    (hc : c ∈ Parser.outOfScope [] (inner lb le f n ts)) (ha : c.label.letter = some a)
    (hsite : a ≠ .assertSite) (hreal : c.label.isRealisable = true) :
    ⟨1, some a, if c.cleanup then n else 1⟩ ∈ N.edges := by
  have hstray : c.stray 1 n =
      some ⟨1, if c.cleanup then n else 1, c.label, c.init, c.cleanup, true⟩ := by
    rw [Transition.stray]
    cases hl : c.label with
    | fn | fieldAssign => rfl
    | assertSite =>
      rw [hl] at ha
      exact absurd (Option.some.inj ha).symm hsite
    | null | subAutomaton =>
      rw [hl] at hreal
      cases hreal
  have hmem : ⟨1, if c.cleanup then n else 1, c.label, c.init, c.cleanup, true⟩ ∈ N.transitions := by
    rw [h.transitions, strays]
    exact List.mem_append_right _ (List.mem_filterMap.mpr ⟨c, hc, hstray⟩)
  rw [← ha]
  exact List.mem_map_of_mem hmem

/-- A symbol that is neither strict nor one of the bounds can be observed at any time. -/
theorem stays (h : Bounded L lb le f n ts N)
    (hL : ∀ l, L l → l.isStrict = false ∧ l.isRealisable = true) (ht : t ∈ N.transitions)
    (ha : t.label.letter = some a) (hsite : a ≠ .assertSite) (hb : lb.letter ≠ some a)
    (he : le.letter ≠ some a) : ⟨1, some a, 1⟩ ∈ N.edges := by
  have hlabel : ∀ v ∈ ts, v.label.letter = some a → L v.label := by
    intro v hv hva
    refine (h.laid v hv).label.resolve_left ?_
    intro hnull
    rw [hnull] at hva
    cases hva
  -- one of the expression's transitions reads it
  obtain ⟨v, hv, hva⟩ : ∃ v ∈ ts, v.label.letter = some a := by
    obtain rfl | ht | rfl | ⟨v, hv, rfl⟩ | rfl := h.cases ht
    · exact absurd ha hb
    · exact ⟨t, ht, ha⟩
    · exact absurd ha he
    · exact ⟨v, hv, ha⟩
    · exact absurd ha he
  have hmem : v ∈ inner lb le f n ts :=
    List.mem_cons_of_mem _ (List.mem_append_left _ hv)
  obtain ⟨c, hc, hca⟩ := exists_outOfScope [] hmem (hL _ (hlabel v hv hva)).1 (h.laid v hv).init
  rw [hva] at hca
  -- and the copy is made of such a one
  have hcts : c ∈ ts := by
    obtain ⟨hin, _, _⟩ := (mem_outOfScope hc).resolve_left List.not_mem_nil
    rw [inner, List.cons_append, List.mem_cons, List.mem_append, List.mem_singleton] at hin
    obtain rfl | hin | rfl := hin
    · exact absurd hca hb
    · exact hin
    · exact absurd hca he
  have hedge := h.stray_edge hc hca hsite (hL _ (hlabel c hcts hca)).2
  rwa [(h.laid c hcts).cleanup] at hedge

/-- The end can be observed at any time. -/
theorem leaves (h : Bounded L lb le f n ts N) (hle : le.isStrict = false)
    (hreal : le.isRealisable = true) (hy : le.letter = some y) (hsite : y ≠ .assertSite)
    (hL : ∀ l, L l → l.letter ≠ some y) : ⟨1, some y, n⟩ ∈ N.edges := by
  have hmem : ⟨f, n, le, false, true, false⟩ ∈ inner lb le f n ts :=
    List.mem_cons_of_mem _ (List.mem_append_right _ List.mem_cons_self)
  obtain ⟨c, hc, hcl⟩ := exists_outOfScope [] hmem hle rfl
  rw [hy] at hcl
  -- the copy is made of the end itself
  obtain rfl : c = ⟨f, n, le, false, true, false⟩ := by
    obtain ⟨hin, _, hinit⟩ := (mem_outOfScope hc).resolve_left List.not_mem_nil
    rw [inner, List.cons_append, List.mem_cons, List.mem_append, List.mem_singleton] at hin
    obtain rfl | hin | rfl := hin
    · cases hinit
    · obtain hnull | hl := (h.laid c hin).label
      · rw [hnull] at hcl
        cases hcl
      · exact absurd hcl (hL _ hl)
    · rfl
  exact h.stray_edge hc hy hsite hreal

/-- The DFA accepts what the NFA accepts. -/
theorem convert_accepts (h : Bounded L lb le f n ts N) (hn : n ∈ N.reached w)
    (hD : DFA.convert N fuel = some D) : w ∈ D.toεNFA.accepts := by
  obtain ⟨B, hB, rfl⟩ := Option.map_eq_some_iff.mp hD
  obtain ⟨hinv, hempty⟩ := constructDFA_spec hB
  obtain ⟨d, hd⟩ := (reached_nonempty_iff hinv hempty).mpr ⟨n, hn⟩
  obtain ⟨S, hS, hmem⟩ := reached_find hinv hempty hd
  have hreject : ∀ s, s ≠ n → N.isAccepting s = false := fun s hs =>
    Bool.eq_false_iff.mpr fun h' => hs (h.isAccepting_iff.mp h')
  have hle := h.le
  refine accepts_of_reached (isStart_zero hB (h.isStart_iff.mpr rfl)) hd ?_
  refine isAccepting_of_mem ?_ (hreject 0 (by omega)) hB hS ((hmem n).mpr hn)
    (h.isAccepting_iff.mpr rfl)
  intro p q hstep
  exact hreject q (h.nullStep hstep).2.ne

end Bounded

/-- The label of a conditional event. -/
theorem label_conditional {e : Expression} (hy : e.conditional = some y) (hl : P.label e = some l) :
    l.letter = some y ∧ l.isStrict = false ∧ l.isRealisable = true ∧ y ≠ .assertSite := by
  cases e with
  | function | fieldAssign =>
    obtain rfl := Option.some.inj hl
    rw [Expression.conditional] at hy
    split at hy
    · cases hy
    · next hstrict =>
      obtain rfl := Option.some.inj hy
      exact ⟨rfl, Bool.eq_false_iff.mpr hstrict, rfl, nofun⟩
  | booleanExpr | sequence | nullExpr | assertionSite | subAutomaton => cases hy

section Conditional

variable {xorOnly : Bool} {d : AutomatonDescription} {use : Usage} {descriptions : AutomataMap}
  {b e : Expression}

/-- With no strict events, and an end that is no event of the expression, the automaton
accepts whatever happens between the beginning and the end, the assertion site aside. -/
theorem conditional_accepts (hN : NFA.link xorOnly d (some use) descriptions fuel = .ok N)
    (hb : use.beginning = some b) (he : use.ending = some e)
    (hx : b.conditional = some x) (hy : e.conditional = some y)
    (hevents : ∀ l ∈ (NFA.linker xorOnly d descriptions).labels fuel d.expression,
      l.isStrict = false ∧ l.letter ≠ some y)
    (hu : ∀ a ∈ u, (∃ t ∈ N.transitions, t.label.letter = some a) ∧ a ≠ .assertSite ∧ a ≠ x ∧
      a ≠ y) :
    [x] ++ u ++ [y] ∈ N.toεNFA.accepts ∧
      ∀ rounds D, DFA.convert N rounds = some D → [x] ++ u ++ [y] ∈ D.toεNFA.accepts := by
  obtain ⟨lb, le, f, n, ts, hlb, hle, _, _, h⟩ := parseAutomaton_bounded hb he hN
  obtain ⟨hxl, _, _, _⟩ := label_conditional hx hlb
  obtain ⟨hyl, hstrict, hreal, hsite⟩ := label_conditional hy hle
  have hloops : ∀ a ∈ u, ⟨1, some a, 1⟩ ∈ N.edges := by
    intro a ha
    obtain ⟨⟨t, ht, hta⟩, hsite, hax, hay⟩ := hu a ha
    refine h.stays (fun l hl => ⟨(hevents l hl).1, labels_realisable hl⟩) ht hta hsite ?_ ?_
    · rw [hxl]
      exact fun h => hax (Option.some.inj h).symm
    · rw [hyl]
      exact fun h => hay (Option.some.inj h).symm
  have hfirst : Walk N.edges 0 [x] 1 := by
    have hedge := h.begins_edge
    rw [hxl] at hedge
    exact .letter hedge
  have hlast : Walk N.edges 1 [y] n :=
    .letter (h.leaves hstrict hreal hyl hsite fun l hl => (hevents l hl).2)
  have hn : n ∈ N.reached ([x] ++ u ++ [y]) :=
    Graph.mem_reached.mpr ((hfirst.append (walk_loops hloops)).append hlast)
  refine ⟨accepts_of_reached (h.isStart_iff.mpr rfl) hn (h.isAccepting_iff.mpr rfl), ?_⟩
  intro rounds D hD
  exact h.convert_accepts hn hD

end Conditional

/-- A call that need not happen as described. -/
def maybeCallTo (name : String) : FunctionEvent := { Parser.callTo name with strict := some false }

def maybeSharedPrefix : AutomatonDescription :=
  { optionalLoop with
    expression := .sequence [.function (maybeCallTo "x"), .function (maybeCallTo "y")] 1 1 }

def maybeWithinCall : Usage :=
  { withinCall with
    beginning := some (.function (maybeCallTo "enter"))
    ending := some (.function (maybeCallTo "leave")) }

def linkedMaybe : Graph :=
  ((NFA.link false maybeSharedPrefix (some maybeWithinCall) (fun _ => none) 3).toOption).getD .empty

/-- `y` before `x`, and `y` again. -/
theorem conditional_accepts_reversed :
    ∃ D, DFA.convert linkedMaybe 12 = some D ∧
      [.fn (maybeCallTo "enter")] ++ [.fn (maybeCallTo "y"), .fn (maybeCallTo "x"),
        .fn (maybeCallTo "y")] ++ [.fn (maybeCallTo "leave")] ∈ D.toεNFA.accepts := by
  have hsome : (DFA.convert linkedMaybe 12).isSome = true := by decide +kernel
  obtain ⟨D, hD⟩ := Option.isSome_iff_exists.mp hsome
  have hlink : NFA.link false maybeSharedPrefix (some maybeWithinCall) (fun _ => none) 3 =
    .ok linkedMaybe := rfl
  have hb : maybeWithinCall.beginning = some (.function (maybeCallTo "enter")) := rfl
  have he : maybeWithinCall.ending = some (.function (maybeCallTo "leave")) := rfl
  obtain ⟨_, haccepts⟩ := conditional_accepts
    (u := [.fn (maybeCallTo "y"), .fn (maybeCallTo "x"), .fn (maybeCallTo "y")]) hlink hb he rfl rfl
    (by decide +kernel) (by decide +kernel)
  exact ⟨D, hD, haccepts 12 D hD⟩

end Tesla.Automata
