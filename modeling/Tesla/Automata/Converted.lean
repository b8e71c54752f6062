/-
# `Tesla.Automata.Converted` — automata with bounds, after conversion

What the run-time relies on in the graph that the subset construction makes of an automaton with
a beginning and an end, if the lifetime of the automaton survives it:

    the first transition reads the beginning, and no other one does
    what begins leaves the start state, to which nothing comes back
    the end cleans up, and nothing else does
    no two transitions leave one state with one letter

And without arguments no state knows a variable.
-/
import Tesla.Automata.Bindings
import Tesla.Automata.Lifetime

namespace Tesla.Automata

open Lib

variable {N g g' : Graph} {fuel s f n d start stop : ℕ} {B : DFABuilder} {S : NFAState}
  {L : Label → Prop} {lb le : Label} {ts us : List Transition} {x y b : Letter} {w : List Letter}
  {t u c : Transition} {R : References}

/-! ## Variables -/

/-- References stay as they are once they are known. -/
theorem Passes.kept {p : Passage} (h : Passes s p g f g') (hd : d < g.states.length)
    (hR : g.refsAt d = some R) : g'.refsAt d = some R := by
  by_cases hds : d = s
  · subst hds
    rw [h.start, Graph.refsFrom, hR]
    split <;> rfl
  · rw [h.others d hd hds, hR]

theorem addOutOfScope_kept (hstart : start < g.states.length) (hstop : stop < g.states.length)
    (hR : g.refsAt d = some R) : (Parser.addOutOfScope start stop g).refsAt d = some R := by
  have hcopy : ∀ {g : Graph} {t : Transition} {dest : ℕ}, t.label ≠ .null → dest < g.states.length →
      g.refsAt d = some R → (g.copy start dest t true).states.length = g.states.length ∧
        (g.copy start dest t true).refsAt d = some R := by
    intro g t dest hnull hdest hR
    obtain ⟨g', c, heq, _, hstates, _, rfl, _⟩ :=
      @Graph.copy_eq_register t true hnull g start dest
    rw [heq, Graph.register_length, hstates]
    rw [← hstates] at hdest
    exact ⟨rfl, Graph.register_kept hdest (by rwa [Graph.refsAt_congr hstates])⟩
  rw [Parser.addOutOfScope]
  generalize Parser.outOfScope [] g.transitions = us
  induction us generalizing g with
  | nil => exact hR
  | cons t us ih =>
    have hdest : (if t.cleanup then stop else start) < g.states.length := by
      split
      · exact hstop
      · exact hstart
    rw [List.foldl_cons]
    cases hl : t.label with
    | null | assertSite | subAutomaton => exact ih hstart hstop hR
    | fn | fieldAssign =>
      obtain ⟨hlen, hkept⟩ := hcopy (t := t) (by simp [hl]) hdest hR
      exact ih (by rwa [hlen]) (by rwa [hlen]) hkept

/-- The start state of a linked automaton has room for the arguments, and knows none of them. -/
theorem link_refs {xorOnly : Bool} {a : AutomatonDescription} {use : Option Usage}
    {descriptions : AutomataMap} (h : NFA.link xorOnly a use descriptions fuel = .ok N) :
    N.refsAt 0 = some (List.replicate a.argument.length none) := by
  obtain ⟨start, g₁, f, g₂, stop, g₃, h₁, h₂, h₃, rfl⟩ := Parser.parseAutomaton_ok h
  obtain ⟨hopen, hg₁, hstart, _⟩ := bound_passes rfl Nat.one_pos (Graph.initial_tracked _) h₁
  have hmid := (NFA.linker xorOnly a descriptions).parse_passes fuel _ _ _ _ _ hstart hg₁ h₂
  have hled := (NFA.linker xorOnly a descriptions).parse_led fuel _ _ _ _ _ hstart hg₁.sources h₂
  have hsub : ∀ x ∈ ({start} : Set ℕ), x < g₁.states.length := by
    rintro x rfl
    exact hstart
  have hg₂ := hled.steps.tracked hsub hsub hg₁
  have hf := hled.final_lt hstart
  obtain ⟨hclose, _, hstop, _⟩ := bound_passes rfl hf hg₂ h₃
  have hzero : 0 < (Graph.initial a.argument.length).states.length := Nat.one_pos
  have hlen₁ := hzero.trans_le hopen.le
  have hlen₂ := hlen₁.trans_le hmid.le
  have hstart₃ := (hstart.trans_le hmid.le).trans_le hclose.le
  refine addOutOfScope_kept hstart₃ hstop (hclose.kept hlen₂ (hmid.kept hlen₁ (hopen.kept hzero ?_)))
  rfl

/-- A graph in which no variable is known anywhere. -/
def Blank (g : Graph) : Prop := ∀ d, g.maskAt d = []

/-- Without room for variables, none is known after the conversion. -/
theorem blank_of_convert (hstart : N.isStart 0 = true)
    (hfresh : ∀ t ∈ N.transitions, t.label ≠ .null → N.isStart t.dest = false)
    (hrefs : N.refsAt 0 = some []) (hB : constructDFA N fuel = some B) : Blank B.graph := by
  intro d
  by_cases hd : d < B.graph.states.length
  · obtain ⟨S, hS⟩ := find_of_lt hB hd
    obtain ⟨R, Ss, ls, hinformed⟩ := informed hstart hfresh hB hS
    have hlen := hinformed.length
    rw [Graph.refsFrom, hrefs, Option.getD_some, List.length_nil, List.length_eq_zero_iff] at hlen
    subst hlen
    refine List.eq_nil_iff_forall_not_mem.mpr fun i hi => ?_
    obtain ⟨a, ha⟩ := (Graph.mem_maskAt hinformed.refs hinformed.indexed).mp hi
    cases ha
  · rw [Graph.maskAt, List.getElem?_eq_none (Nat.le_of_not_lt hd)]
    rfl

/-! ## One transition for a letter -/

/-- No two transitions leave one state with one letter. -/
def Deterministic (g : Graph) : Prop :=
  (g.transitions.map fun t => (t.source, t.label.letter)).Nodup

theorem letters_eq (B : DFABuilder) (d : ℕ) :
    B.letters d = (B.graph.transitions.filter fun t => t.source = d).map (·.label.letter) := by
  have hout : (B.graph.out d).map Prod.fst = B.graph.transitions.filter fun t => t.source = d := by
    conv_rhs => rw [← List.zipIdx_map_fst 0 B.graph.transitions, List.filter_map]
    rfl
  rw [← hout, List.map_map]
  rfl

theorem deterministic_of_convert (hB : constructDFA N fuel = some B) : Deterministic B.graph := by
  obtain ⟨hinv, hdone⟩ := constructDFA_spec hB
  rw [Deterministic, List.Nodup, List.pairwise_map, List.pairwise_iff_forall_sublist]
  intro t u hsub heq
  obtain ⟨hsource, hletter⟩ := Prod.mk.inj heq
  obtain ⟨S, hS⟩ := hinv.done t.source (hinv.sources t (hsub.mem List.mem_cons_self)) (fun h => by cases h)
  have hnodup := hS.nodup
  rw [letters_eq] at hnodup
  have hpair : [t, u].Sublist (B.graph.transitions.filter fun v => v.source = t.source) := by
    have hfilter := hsub.filter fun v => decide (v.source = t.source)
    simpa [hsource] using hfilter
  have hletters := hnodup.sublist (hpair.map (·.label.letter))
  simp [hletter] at hletters

theorem letter_of_convert (hB : constructDFA N fuel = some B) (hc : c ∈ B.graph.transitions) :
    c.label.letter ≠ none := by
  obtain ⟨hinv, hdone⟩ := constructDFA_spec hB
  obtain ⟨i, hi⟩ := List.mem_iff_getElem?.mp hc
  obtain ⟨S, hS⟩ := hinv.done c.source (hinv.sources c hc) (fun h => by cases h)
  obtain ⟨a, _, ha, _⟩ := hS.leads (c, i) (Graph.mem_out.mpr ⟨List.mk_mem_zipIdx_iff_getElem?.mpr hi, rfl⟩)
  rw [ha]
  exact Option.some_ne_none a

/-! ## The first transition -/

/-- A state is made when a transition to it is, and the first state is the first to be left. -/
theorem head_source (hB : constructDFA N fuel = some B) :
    ∀ c ∈ B.graph.transitions.head?, c.source = 0 := by
  let J : DFABuilder → Prop := fun B =>
    (∀ S d, B.find S = some d → d = 0 ∨ ∃ c ∈ B.graph.transitions, c.dest = d) ∧
      ∀ c ∈ B.graph.transitions.head?, c.source = 0
  suffices hJ : J B from hJ.2
  refine constructDFA_rule (J := J) ?_ id id ?_ hB
  · intro F hF
    refine ⟨fun S d hS => ?_, fun c hc => by cases hc⟩
    exact .inl ((find_stateForNFAStates rfl hS).resolve_right (fun h => by cases h)).2
  · rintro S ds before t M a F B hmaking ⟨hentered, hhead⟩
    obtain ⟨finished, hexp⟩ := hmaking.expanding
    obtain ⟨c, htrans, hsource, _, hdest⟩ := hmaking.make_spec
    refine ⟨fun S' d hS' => ?_, ?_⟩
    · obtain rfl | hold := DFABuilder.find_make hS'
      · obtain rfl := Option.some.inj (hdest.symm.trans hS')
        exact .inr ⟨c, by rw [htrans]; simp, rfl⟩
      · obtain rfl | ⟨u, hu, rfl⟩ := hentered S' d hold
        · exact .inl rfl
        · exact .inr ⟨u, by rw [htrans]; exact List.mem_append_left _ hu, rfl⟩
    · rw [htrans]
      cases hnil : B.graph.transitions with
      | nil =>
        intro c' hc'
        obtain rfl : c = c' := by simpa using hc'
        obtain rfl | ⟨u, hu, _⟩ := hentered S ds hexp.found
        · exact hsource
        · rw [hnil] at hu
          cases hu
      | cons u us =>
        rw [hnil] at hhead
        exact hhead

/-! ## The lifetime -/

/-- The lifetime of an automaton stands in a graph: from `x` to `y`. -/
structure HasLifetime (g : Graph) (x y : Letter) : Prop where
  first : ∃ c cs, g.transitions = c :: cs ∧ c.label.letter = some x
  begins : ∀ c ∈ g.transitions, c.label.letter = some x ↔ c.init = true
  start : ∀ c ∈ g.transitions, c.init = true → c.source = 0
  fresh : ∀ c ∈ g.transitions, c.dest ≠ 0
  ends : ∀ c ∈ g.transitions, c.label.letter = some y ↔ c.cleanup = true
  closes : ∃ c ∈ g.transitions, c.label.letter = some y

section Convert

variable (h : Bounded L lb le f n ts N) (hN : ∀ t ∈ N.transitions, t.Regular)
  (hx : lb.letter = some x) (hy : le.letter = some y) (hB : constructDFA N fuel = some B)

include h hB in
/-- The first state stands for the first one alone. -/
theorem find_zero : B.find S = some 0 ↔ S.ids = [0] := by
  obtain ⟨hinv, _⟩ := constructDFA_spec hB
  obtain ⟨S₀, hS₀, hmem⟩ := hinv.start
  have hids : S₀.ids = [0] := by
    refine NFAState.ids_eq_singleton fun s => ?_
    rw [hmem, ← Graph.mem_reached]
    exact h.reached_zero (w := []) (Graph.mem_reached.mpr (.nil 0))
  constructor
  · intro hS
    obtain rfl := hinv.find_inj hS hS₀
    exact hids
  · intro hS
    obtain rfl : S = S₀ := NFAState.ext_ids (hS.trans hids.symm)
    exact hS₀

include h hN hB in
theorem dest_ne_zero (hc : c ∈ B.graph.transitions) : c.dest ≠ 0 := by
  intro hzero
  obtain ⟨S, u, S', _, hS', hreads, _⟩ := reads_of_made hN hB hc
  rw [hzero] at hS'
  have hmem : u.1.dest ∈ S'.ids := (hreads.leads _).mpr ⟨u, hreads.first.mem, rfl, .nil _⟩
  rw [(find_zero h hB).mp hS', List.mem_singleton] at hmem
  have := h.dest_pos (List.fst_mem_of_mem_zipIdx (mem_leaving hreads.first.mem).1)
  omega

include h hN hx hB in
/-- What begins reads the beginning, and leaves the start. -/
theorem begins_of_init (hc : c ∈ B.graph.transitions) (hinit : c.init = true) :
    c.label.letter = some x ∧ c.source = 0 := by
  obtain ⟨S, u, hS, hu, heq⟩ := origin hN hB hc
  have hinit' : u.1.init = true := by
    rw [← hinit, heq]
  obtain ⟨hmem, hs⟩ := mem_leaving hu.mem
  obtain hbegin | ⟨hplain, _⟩ := h.source_pos (List.fst_mem_of_mem_zipIdx hmem)
  · refine ⟨?_, ?_⟩
    · rw [heq, hbegin]
      exact hx
    · obtain ⟨w, hw⟩ := find_reached hB hS
      rw [hbegin, hw] at hs
      have hids : S.ids = [0] := NFAState.ids_eq_singleton fun s => (hw s).trans (h.reached_zero hs)
      exact Option.some.inj (hS.symm.trans ((find_zero h hB).mpr hids))
  · rw [hinit'] at hplain
    cases hplain

include h hN hx hy hB in
theorem hasLifetime_of_convert (hbegins : BeginsOnly N x) (hends : EndsFirst N y) :
    HasLifetime B.graph x y := by
  have hinit : ∀ c ∈ B.graph.transitions, c.label.letter = some x → c.init = true := fun c =>
    transition_of_leaving hN hB (P := fun t => t.init = true) id fun hw hu hux => by
      obtain ⟨s, hs, hus⟩ := List.mem_flatMap.mp hu.mem
      exact hbegins _ s ((hw s).mp hs) _ hus hux
  have hclean : ∀ c ∈ B.graph.transitions, c.label.letter = some y → c.cleanup = true := fun c =>
    transition_of_leaving hN hB (P := fun t => t.cleanup = true) id
      fun hw hu huy => hends.cleanup hw hu huy
  have hreads : ∀ c ∈ B.graph.transitions, c.cleanup = true → c.label.letter = some y := by
    intro c hc hcleanup
    obtain ⟨S, w, u, _, hu, heq⟩ := transition_origin hN hB hc
    rw [heq] at hcleanup ⊢
    exact letter_of_cleanup h hy hu.mem hcleanup
  refine ⟨?_, fun c hc => ⟨hinit c hc, fun hi => (begins_of_init h hN hx hB hc hi).1⟩,
    fun c hc hi => (begins_of_init h hN hx hB hc hi).2, fun c hc => dest_ne_zero h hN hB hc,
    fun c hc => ⟨hclean c hc, hreads c hc⟩, ?_⟩
  · -- the first transition leaves the start, and only the beginning does
    obtain ⟨i, hi⟩ := h.begins_mem
    obtain ⟨_, d, _, _, c, hc, _⟩ := exists_out hB (Graph.mem_reached.mpr (.nil 0)) hi hx
    obtain ⟨c', cs, hcons⟩ := List.exists_cons_of_ne_nil
      (List.ne_nil_of_mem (List.fst_mem_of_mem_zipIdx (Graph.mem_out.mp hc).1))
    have hmem : c' ∈ B.graph.transitions := hcons ▸ List.mem_cons_self
    have hzero : c'.source = 0 := head_source hB c' (by rw [hcons]; rfl)
    obtain ⟨S, u, hS, hu, heq⟩ := origin hN hB hmem
    rw [hzero, find_zero h hB] at hS
    have hu' := hu.mem
    rw [hS, List.flatMap_singleton] at hu'
    refine ⟨c', cs, hcons, ?_⟩
    rw [heq, h.out_zero hu']
    exact hx
  · obtain ⟨w, hf, i, hi⟩ := h.ends_reached
    obtain ⟨_, _, _, _, c, hc, hcy⟩ := exists_out hB hf hi hy
    exact ⟨c.1, List.fst_mem_of_mem_zipIdx (Graph.mem_out.mp hc).1, hcy⟩

include h hB in
/-- The converted automaton can read the end where the automaton accepts, and nowhere else. -/
theorem reached_iff_accepts (hends : EndsFirst N y) (w : List Letter) :
    (B.graph.reached (w ++ [y])).Nonempty ↔ w ++ [y] ∈ N.toεNFA.accepts := by
  obtain ⟨hinv, hdone⟩ := constructDFA_spec hB
  rw [reached_nonempty_iff hinv hdone,
    toεNFA_accepts (fun s => h.isStart_iff) fun s => h.isAccepting_iff]
  constructor
  · rintro ⟨s, hs⟩
    obtain ⟨p, hp, t, ht, hty, _⟩ := Graph.mem_reached_concat.mp hs
    have hend : ∃ s' ∈ N.reached w, ∃ t' ∈ N.out s', t'.1.label.letter = some y ∧
        t'.1.cleanup = true := by
      obtain hcleanup | ⟨s', hs', t', ht', hty', hcleanup', _⟩ := hends w p hp t ht hty
      · exact ⟨p, hp, t, ht, hty, hcleanup⟩
      · exact ⟨s', hs', t', ht', hty', hcleanup'⟩
    obtain ⟨s', hs', t', ht', hty', hcleanup'⟩ := hend
    obtain ⟨_, hdest, _⟩ | ⟨hnot, _⟩ :=
      h.cleanup_iff (List.fst_mem_of_mem_zipIdx (Graph.mem_out.mp ht').1)
    · refine Graph.mem_reached.mp (Graph.mem_reached_concat.mpr ⟨s', hs', t', ht', hty', ?_⟩)
      rw [hdest]
      exact .nil n
    · rw [hcleanup'] at hnot
      cases hnot
  · exact fun hw => ⟨n, Graph.mem_reached.mpr hw⟩

end Convert

end Tesla.Automata
