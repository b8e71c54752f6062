/-
# `Tesla.Instrumenter.Verdict` — what the run-time says, and what was asserted

From the assertion to the report, for automata with bounds and without variables:

    the automaton that is linked          its language, `NFA.link`
    the subset construction               `DFA.convert`
    the table that is compiled in         `buildAutomatonDescription`
    the calls that the program makes      windows, in a run of the library
    what the library reports              `failuresOf` the automaton's class

Each step has its theorem elsewhere.  Together: the library is silent about a run if and only if
every window in which anything happened is a word of the automaton, that is, if the events of the
assertion are strict and no repetition runs over its end, a word of what was asserted.
-/
import Tesla.Instrumenter.Table

namespace Tesla.Instrumenter

open Automata Lib Tesla.Runtime

variable {N D : Graph} {d : AutomatonDescription} {use : Usage} {descriptions : AutomataMap}
  {xorOnly : Bool} {fuel rounds n : Nat} {b e : Expression} {x y : Letter} {w : List Letter}
  {L : Language Letter} {it : Iteration} {m : Automata.Automaton} {l : Runtime.Lifetime}
  {P : Program} {a : Ptr} {classes instances : UInt32} {ks : List Call} {s : Store}
  {evs : List Event} {cls : Nat} {c : Runtime.Class} {vs : List Span} {ws : List (List Letter)}

/-- The events of a window are the letters of a word, and the key that it is closed with has no
free variable. -/
structure Reads (it : Iteration) (g : Graph) (v : Span) (w : List Letter) : Prop where
  symbols : v.events.map Prod.fst = w.map (symbolOf it g)
  occur : ∀ b ∈ w, Occurs g b
  about : ∀ e ∈ v.events, e.2.tkFreemask = 0
  junk : v.junk.tkFreemask = 0

/-- A word stands between the bounds if and only if it does so with them. -/
theorem mem_between : [x] ++ w ++ [y] ∈ ({[x]} * L * {[y]} : Language Letter) ↔ w ∈ L := by
  constructor
  · intro hmem
    obtain ⟨u, hu, _, rfl, heq⟩ := Language.mem_mul.mp hmem
    obtain ⟨_, rfl, v, hv, rfl⟩ := Language.mem_mul.mp hu
    obtain rfl := List.append_cancel_left (List.append_cancel_right heq)
    exact hv
  · intro hw
    exact Language.append_mem_mul (Language.append_mem_mul rfl hw) rfl

theorem forall_about (h : List.Forall₂ (Reads it D) vs ws) :
    ∀ v ∈ vs, ∀ e ∈ v.events, e.2.tkFreemask = 0 := by
  induction h with
  | nil => exact List.forall_mem_nil _
  | cons hvw _ ih => exact List.forall_mem_cons.mpr ⟨hvw.about, ih⟩

section Convert

variable (hN : NFA.link xorOnly d (some use) descriptions fuel = .ok N)
  (hb : use.beginning = some b) (he : use.ending = some e) (hx : b.event = some x)
  (hy : e.event = some y) (hD : DFA.convert N rounds = some D)
  (hbegins : BeginsOnly N x) (hends : EndsFirst N y)
include hN hb he hx hy hD hbegins hends

/-- What the table relies on, for an automaton that has been linked and converted. -/
theorem lifetime_of_convert : HasLifetime D x y ∧ Deterministic D ∧
    (∀ t ∈ D.transitions, t.label.letter ≠ none) ∧ (d.argument = [] → Blank D) ∧
    ∀ w, (D.reached (w ++ [y])).Nonempty ↔ w ++ [y] ∈ N.toεNFA.accepts := by
  obtain ⟨lb, le, f, n, ts, hlb, hle, hbe, hee, h⟩ := parseAutomaton_bounded hb he hN
  rw [hx] at hbe
  rw [hy] at hee
  have hregular : ∀ t ∈ N.transitions, t.Regular := fun t =>
    h.regular (fun l hl => labels_realisable hl) (label_realisable hlb) (label_realisable hle)
  obtain ⟨B, hB, rfl⟩ := Option.map_eq_some_iff.mp hD
  refine ⟨hasLifetime_of_convert h hregular hbe.symm hee.symm hB hbegins hends,
    deterministic_of_convert hB, fun t => letter_of_convert hB, fun hargs => ?_,
    reached_iff_accepts h hB hends⟩
  refine blank_of_convert (h.isStart_iff.mpr rfl) ?_ ?_ hB
  · intro t ht _
    rw [Bool.eq_false_iff]
    intro hstart
    have := h.dest_pos ht
    rw [h.isStart_iff] at hstart
    omega
  · rw [link_refs hN, hargs]
    rfl

variable (hargs : d.argument = []) (hgraph : m.graph = D)
  (hP : P.automaton a = buildAutomatonDescription it m l) (hpos : instances ≠ 0)
  (h : WatchedTrace P a classes instances ks s evs) (hc : s.tsClasses[cls]? = some c)
  (ha : c.tcAutomaton = some a) (hvs : ks.filter (Concerns (P.automaton a) a) = spanCalls a vs)
  (hreads : List.Forall₂ (Reads it D) vs ws)
include hargs hgraph hP hpos h hc ha hvs hreads

/-- The report, in terms of the converted automaton. -/
theorem silent_iff_reached : failuresOf cls evs = [] ↔
    ∀ w ∈ ws, w = [] ∨ (D.reached ([x] ++ w ++ [y])).Nonempty := by
  obtain ⟨hlife, hdet, hnull, hblank, _⟩ := lifetime_of_convert hN hb he hx hy hD hbegins hends
  subst hgraph
  obtain ⟨u, _, _, hplain⟩ := plain_of_hasLifetime hlife hdet (hblank hargs) it l
  rw [← hP] at hplain
  have hcleanup := cleanup_of_symbol hlife it l
  rw [← hP] at hcleanup
  rw [h.silent_iff hplain hpos hcleanup hc ha hvs (forall_about hreads), hP]
  clear hvs
  induction hreads with
  | nil => exact ⟨fun _ => List.forall_mem_nil _, fun _ => List.forall_mem_nil _⟩
  | cons hvw _ ih =>
    rw [List.forall_mem_cons, List.forall_mem_cons]
    refine and_congr ?_ ih
    exact accepts_iff hlife hdet (hblank hargs) hnull hvw.occur hvw.symbols hvw.junk

end Convert

/-! ## Two branches that begin with the same call -/

def convertedSharedPrefix : Graph := (DFA.convert linkedSharedPrefix 12).getD .empty

def sharedPrefixProgram : Program :=
  ⟨fun _ => buildAutomatonDescription .insertion ⟨sharedPrefix, convertedSharedPrefix⟩ callLifetime,
    false⟩

def sharedPrefixSymbol (name : String) : Nat × Key :=
  (symbolOf .insertion convertedSharedPrefix (Parser.called name), Key.zero)

/-- First `x`, then `z`; then nothing; then `x` alone. -/
def sharedPrefixWords : List (List Letter) :=
  [[Parser.called "x", Parser.called "z"], [], [Parser.called "x"]]

def sharedPrefixSpans : List Span :=
  [⟨callLifetime, [sharedPrefixSymbol "x", sharedPrefixSymbol "z"], Key.zero⟩,
    ⟨callLifetime, [], Key.zero⟩, ⟨callLifetime, [sharedPrefixSymbol "x"], Key.zero⟩]

theorem sharedPrefix_converted :
    DFA.convert linkedSharedPrefix 12 = some convertedSharedPrefix := by
  have hsome : (DFA.convert linkedSharedPrefix 12).isSome = true := by decide +kernel
  obtain ⟨D, hD⟩ := Option.isSome_iff_exists.mp hsome
  rw [convertedSharedPrefix, hD, Option.getD_some]

theorem sharedPrefix_trace : ∃ s evs c,
    WatchedTrace sharedPrefixProgram 7 2 4 (spanCalls 7 sharedPrefixSpans) s evs ∧
      s.tsClasses[1]? = some c ∧ c.tcAutomaton = some 7 := by
  have hrun : ((watchedCalls sharedPrefixProgram 7 (storeInit 2 4)
      (spanCalls 7 sharedPrefixSpans)).any fun r =>
        r.1.tsClasses[1]?.any fun c => c.tcAutomaton = some 7) = true := by
    decide +kernel
  obtain ⟨⟨s, evs⟩, hcalls, h⟩ := (Option.any_eq_true ..).mp hrun
  obtain ⟨c, hc, ha⟩ := (Option.any_eq_true ..).mp h
  exact ⟨s, evs, c, trace_of_calls hcalls, hc, of_decide_eq_true ha⟩

theorem sharedPrefix_reads : List.Forall₂ (Reads .insertion convertedSharedPrefix)
    sharedPrefixSpans sharedPrefixWords := by
  refine .cons ?_ (.cons ?_ (.cons ?_ .nil))
  · exact ⟨rfl, by decide +kernel, by decide, rfl⟩
  · exact ⟨rfl, by decide, by decide, rfl⟩
  · exact ⟨rfl, by decide +kernel, by decide, rfl⟩

end Tesla.Instrumenter
