/-
# `Tesla.Automata.Lifetime` — the bounds of an automaton in its DFA

A transition of the DFA stands for all transitions of the NFA that leave its set and
read its symbol, and has the flags of the first of them.  So the lifetime of the
automaton survives the conversion just when

    `BeginsOnly`   nothing else reads the beginning
    `EndsFirst`    wherever the end can be read, the first to read it is the end

With these, what carries a flag from one NFA state's transition to the next does no
harm either: the end is the last thing that leaves a state (`Bounded.nothing_after`).
-/
import Tesla.Automata.Bounds
import Tesla.Automata.Classes

namespace Tesla.Automata

open Lib

variable {N D : Graph} {fuel s f n d : ℕ} {S : NFAState} {B : DFABuilder} {L : Label → Prop}
  {lb le : Label} {ts : List Transition} {x y : Letter} {w : List Letter} {it : Iteration}
  {t u v : Transition × ℕ} {us : List (Transition × ℕ)} {c : Transition}

/-! ## The order of transitions -/

/-- By state, and in the order of their creation. -/
def Precedes (t u : Transition × ℕ) : Prop :=
  t.1.source < u.1.source ∨ t.1.source = u.1.source ∧ t.2 < u.2

theorem Precedes.asymm (h : Precedes t u) (h' : Precedes u t) : False := by
  rw [Precedes] at h h'
  omega

theorem zipIdx_sorted (ts : List Transition) : ts.zipIdx.Pairwise fun t u => t.2 < u.2 := by
  rw [← List.pairwise_map, List.zipIdx_map_snd]
  exact List.pairwise_lt_range'

/-- What leaves a set is walked in that order. -/
theorem leaving_sorted (N : Graph) (S : NFAState) : (S.ids.flatMap N.out).Pairwise Precedes := by
  rw [List.pairwise_flatMap]
  refine ⟨?_, ?_⟩
  · intro s _
    refine ((zipIdx_sorted N.transitions).filter _).imp_of_mem ?_
    intro t u ht hu hlt
    exact .inr ⟨(Graph.mem_out.mp ht).2.trans (Graph.mem_out.mp hu).2.symm, hlt⟩
  · refine S.sorted.imp ?_
    intro s s' hlt t ht u hu
    rw [Precedes, (Graph.mem_out.mp ht).2, (Graph.mem_out.mp hu).2]
    exact .inl hlt

/-- Nothing of its letter comes before the first one. -/
theorem FirstOf.not_precedes (h : FirstOf us t) (hus : us.Pairwise Precedes) (hu : u ∈ us)
    (hletter : u.1.label.letter = t.1.label.letter) : ¬ Precedes u t := by
  obtain ⟨before, M, rfl, hfirst⟩ := h
  intro hprec
  rw [List.mem_append, List.mem_cons] at hu
  obtain hu | rfl | hu := hu
  · exact hfirst u hu hletter
  · exact hprec.asymm hprec
  · exact hprec.asymm ((List.pairwise_cons.mp (List.pairwise_append.mp hus).2.1).1 u hu)

/-! ## Reading the bounds -/

/-- Whatever can be taken and reads `x` is an initialisation. -/
def BeginsOnly (N : Graph) (x : Letter) : Prop :=
  ∀ w, ∀ s ∈ N.reached w, ∀ t ∈ N.out s, t.1.label.letter = some x → t.1.init = true

/-- Of what can be taken at a time and reads `y`, the first one cleans up. -/
def EndsFirst (N : Graph) (y : Letter) : Prop :=
  ∀ w, ∀ s ∈ N.reached w, ∀ t ∈ N.out s, t.1.label.letter = some y → t.1.cleanup = true ∨
    ∃ s' ∈ N.reached w, ∃ t' ∈ N.out s', t'.1.label.letter = some y ∧ t'.1.cleanup = true ∧
      Precedes t' t

theorem EndsFirst.cleanup (h : EndsFirst N y) (hS : S.ReachedBy N w)
    (ht : FirstOf (S.ids.flatMap N.out) t) (hy : t.1.label.letter = some y) :
    t.1.cleanup = true := by
  obtain ⟨s, hs, hts⟩ := List.mem_flatMap.mp ht.mem
  obtain hcleanup | ⟨s', hs', t', ht', hy', _, hprec⟩ := h w s ((hS s).mp hs) t hts hy
  · exact hcleanup
  · refine absurd hprec (ht.not_precedes (leaving_sorted N S) ?_ (hy'.trans hy.symm))
    exact List.mem_flatMap.mpr ⟨s', (hS s').mpr hs', ht'⟩

/-- The flags of the NFA are those of the DFA. -/
structure LifetimesSurvive (it : Iteration) (N D : Graph) : Prop where
  init : ∀ (d : ℕ) (st : State), D.states[d]? = some st → ∀ t ∈ D.out d, (t.1.init = true ↔
    ∃ u ∈ st.name.flatMap N.out, u.1.label.letter = t.1.label.letter ∧ u.1.init = true)
  cleanup : ∀ (d : ℕ) (st : State), D.states[d]? = some st → ∀ t ∈ D.out d, (t.1.cleanup = true ↔
    ∃ u ∈ st.name.flatMap N.out, u.1.label.letter = t.1.label.letter ∧ u.1.cleanup = true)
  accept : ∀ (d : ℕ) (st : State), D.states[d]? = some st →
    (st.accept = true ↔ ∃ s ∈ st.name, N.isAccepting s = true)
  begins : (Automaton.init it D).isSome
  ends : ∀ t, t ∈ Automaton.cleanup it D ↔ t ∈ D.transitions ∧ t.cleanup = true

/-! ## Bounded automata -/

theorem outOfScope_concat (noted us : List Transition) (e : Transition) :
    ∃ last, Parser.outOfScope noted (us ++ [e]) = Parser.outOfScope noted us ++ last ∧
      (last = [] ∨ last = [e]) := by
  induction us generalizing noted with
  | nil =>
    rw [List.nil_append, Parser.outOfScope, Parser.outOfScope, Parser.outOfScope,
      Parser.outOfScope]
    split
    · exact ⟨[], (List.append_nil _).symm, .inl rfl⟩
    · exact ⟨[e], rfl, .inr rfl⟩
  | cons u us ih =>
    rw [List.cons_append, Parser.outOfScope, Parser.outOfScope]
    split
    · exact ih noted
    · exact ih (noted ++ [u])

namespace Bounded

/-- The copy of the end comes last, if there is one. -/
theorem strays_eq (h : Bounded L lb le f n ts N) :
    ∃ mid last, strays 1 n (inner lb le f n ts) = mid ++ last ∧
      (∀ t ∈ mid, ∃ u ∈ ts, t = ⟨1, 1, u.label, false, false, true⟩) ∧
      (last = [] ∨ last = [⟨1, n, le, false, true, true⟩]) := by
  obtain ⟨last, heq, hlast⟩ := outOfScope_concat [] (⟨0, 1, lb, true, false, false⟩ :: ts)
    ⟨f, n, le, false, true, false⟩
  refine ⟨(Parser.outOfScope [] (⟨0, 1, lb, true, false, false⟩ :: ts)).filterMap
    (Transition.stray 1 n), last.filterMap (Transition.stray 1 n), ?_, ?_, ?_⟩
  · rw [strays, inner, heq, List.filterMap_append]
  · intro t ht
    obtain ⟨u, hu, hstray⟩ := List.mem_filterMap.mp ht
    obtain rfl := Transition.stray_label hstray
    obtain ⟨hu, _, hinit⟩ := (mem_outOfScope hu).resolve_left List.not_mem_nil
    obtain rfl | hu := List.mem_cons.mp hu
    · cases hinit
    · have hlaid := h.laid u hu
      rw [hlaid.cleanup, hlaid.init]
      exact ⟨u, hu, rfl⟩
  · obtain rfl | rfl := hlast
    · exact .inl rfl
    · cases hstray : Transition.stray 1 n ⟨f, n, le, false, true, false⟩ with
      | none => exact .inl (by rw [List.filterMap_cons_none hstray, List.filterMap_nil])
      | some c =>
        obtain rfl := Transition.stray_label hstray
        exact .inr (by rw [List.filterMap_cons_some hstray, List.filterMap_nil]; rfl)

/-- What leaves a state after the end reads the same. -/
theorem nothing_after (h : Bounded L lb le f n ts N) (hv : v ∈ N.transitions.zipIdx)
    (ht : t ∈ N.transitions.zipIdx) (hcleanup : v.1.cleanup = true)
    (hsource : v.1.source = t.1.source) (hlt : v.2 < t.2) : t.1.label = le := by
  have hpair : N.transitions.Pairwise fun v t =>
      v.cleanup = true → v.source = t.source → t.label = le := by
    obtain ⟨mid, last, heq, hmid, hlast⟩ := h.strays_eq
    have hts : ∀ v ∈ (⟨0, 1, lb, true, false, false⟩ : Transition) :: ts, v.cleanup = false := by
      rw [List.forall_mem_cons]
      exact ⟨rfl, fun v hv => (h.laid v hv).cleanup⟩
    have hmid' : ∀ v ∈ mid, v.cleanup = false := by
      intro v hv
      obtain ⟨u, _, rfl⟩ := hmid v hv
      rfl
    have hnever : ∀ {us us' : List Transition}, (∀ v ∈ us, v.cleanup = false) → ∀ v ∈ us, ∀ t ∈ us',
        v.cleanup = true → v.source = t.source → t.label = le := by
      intro us us' hus v hv t _ hcleanup
      rw [hus v hv] at hcleanup
      cases hcleanup
    rw [h.transitions, heq, inner]
    refine List.pairwise_append.mpr ⟨List.pairwise_append.mpr ⟨?_, List.pairwise_singleton _ _, ?_⟩,
      List.pairwise_append.mpr ⟨?_, ?_, ?_⟩, ?_⟩
    · exact List.pairwise_of_forall_mem_list (hnever hts)
    · exact hnever hts
    · exact List.pairwise_of_forall_mem_list (hnever hmid')
    · obtain rfl | rfl := hlast
      · exact .nil
      · exact List.pairwise_singleton _ _
    · exact hnever hmid'
    · intro v hv t ht
      obtain hv | hv := List.mem_append.mp hv
      · exact hnever hts v hv t ht
      · obtain rfl := List.mem_singleton.mp hv
        intro _ hsource
        obtain ht | ht := List.mem_append.mp ht
        · -- only the idle expression ends where it started, and it has no events
          obtain ⟨u, hu, rfl⟩ := hmid t ht
          rw [h.idle hsource] at hu
          cases hu
        · obtain rfl | rfl := hlast
          · cases ht
          · obtain rfl := List.mem_singleton.mp ht
            rfl
  obtain ⟨hlen, heq⟩ := List.getElem?_eq_some_iff.mp (List.mk_mem_zipIdx_iff_getElem?.mp hv)
  obtain ⟨hlen', heq'⟩ := List.getElem?_eq_some_iff.mp (List.mk_mem_zipIdx_iff_getElem?.mp ht)
  rw [← heq] at hcleanup hsource
  rw [← heq'] at hsource ⊢
  exact List.pairwise_iff_getElem.mp hpair v.2 t.2 hlen hlen' hlt hcleanup hsource

theorem source_pos (h : Bounded L lb le f n ts N) (hc : c ∈ N.transitions) :
    c = ⟨0, 1, lb, true, false, false⟩ ∨ c.init = false ∧ 1 ≤ c.source := by
  obtain hc | hc | rfl | ⟨u, hu, rfl⟩ | rfl := h.cases hc
  · exact .inl hc
  · exact .inr ⟨(h.laid c hc).init, (h.among (h.laid c hc).source).1⟩
  · exact .inr ⟨rfl, (h.among h.final).1⟩
  · exact .inr ⟨rfl, le_rfl⟩
  · exact .inr ⟨rfl, le_rfl⟩

theorem dest_pos (h : Bounded L lb le f n ts N) (hc : c ∈ N.transitions) : 1 ≤ c.dest := by
  have hle := h.le
  obtain rfl | hc | rfl | ⟨u, hu, rfl⟩ | rfl := h.cases hc
  · exact le_rfl
  · exact (h.among (h.laid c hc).dest).1
  · exact (Nat.le_succ 1).trans hle
  · exact le_rfl
  · exact (Nat.le_succ 1).trans hle

/-- What cleans up is what leads to the last state, and all of it reads the end. -/
theorem cleanup_iff (h : Bounded L lb le f n ts N) (hc : c ∈ N.transitions) :
    c.cleanup = true ∧ c.dest = n ∧ c.label = le ∨ c.cleanup = false ∧ c.dest ≠ n := by
  have hle := h.le
  obtain rfl | hc | rfl | ⟨u, hu, rfl⟩ | rfl := h.cases hc
  · exact .inr ⟨rfl, (Nat.lt_of_succ_le hle).ne⟩
  · exact .inr ⟨(h.laid c hc).cleanup, (h.among (h.laid c hc).dest).2.ne⟩
  · exact .inl ⟨rfl, rfl, rfl⟩
  · exact .inr ⟨rfl, (Nat.lt_of_succ_le hle).ne⟩
  · exact .inl ⟨rfl, rfl, rfl⟩

/-- The automaton is in its first state at the beginning, and then only there. -/
theorem reached_zero (h : Bounded L lb le f n ts N) (hw : 0 ∈ N.reached w) :
    s ∈ N.reached w ↔ s = 0 := by
  have hentered : ∀ e ∈ N.edges, e.dst ≠ 0 := by
    intro e he
    obtain ⟨c, hc, rfl⟩ := List.mem_map.mp he
    exact Nat.one_le_iff_ne_zero.mp (h.dest_pos hc)
  obtain ⟨_, rfl⟩ | ⟨e, he, hdst⟩ := (Graph.mem_reached.mp hw).eq_or_entered
  · constructor
    · intro hs
      obtain rfl | ⟨t, ht, hnull, _⟩ := Graph.walk_nil_iff.mp (Graph.mem_reached.mp hs)
      · rfl
      · obtain ⟨hmem, hsource⟩ := Graph.mem_out.mp ht
        obtain hc | ⟨_, hpos⟩ := h.source_pos (List.fst_mem_of_mem_zipIdx hmem)
        · rw [hc] at hnull
          exact absurd (Label.letter_eq_none.mp hnull) h.begins
        · omega
    · rintro rfl
      exact hw
  · exact absurd hdst (hentered e he)

theorem out_zero (h : Bounded L lb le f n ts N) (ht : t ∈ N.out 0) :
    t.1 = ⟨0, 1, lb, true, false, false⟩ := by
  obtain ⟨hmem, hsource⟩ := Graph.mem_out.mp ht
  obtain hc | ⟨_, hpos⟩ := h.source_pos (List.fst_mem_of_mem_zipIdx hmem)
  · exact hc
  · omega

theorem begins_mem (h : Bounded L lb le f n ts N) :
    ∃ i, ((⟨0, 1, lb, true, false, false⟩ : Transition), i) ∈ N.out 0 := by
  refine ⟨0, Graph.mem_out.mpr ⟨List.mk_mem_zipIdx_iff_getElem?.mpr ?_, rfl⟩⟩
  rw [h.transitions]
  rfl

/-- The end can be read at some time. -/
theorem ends_reached (h : Bounded L lb le f n ts N) :
    ∃ w, f ∈ N.reached w ∧ ∃ i, ((⟨f, n, le, false, true, false⟩ : Transition), i) ∈ N.out f := by
  obtain ⟨w, hw⟩ := h.path
  have hmem : (⟨f, n, le, false, true, false⟩ : Transition) ∈ N.transitions := by
    rw [h.transitions, inner]
    exact List.mem_append_left _ (List.mem_append_right _ List.mem_cons_self)
  obtain ⟨i, hi⟩ := List.mem_iff_getElem?.mp hmem
  have hfirst : Walk N.edges 0 lb.letter.toList 1 := .edge h.begins_edge
  exact ⟨_, Graph.mem_reached.mpr (hfirst.append hw), i,
    Graph.mem_out.mpr ⟨List.mk_mem_zipIdx_iff_getElem?.mpr hi, rfl⟩⟩

theorem regular (h : Bounded L lb le f n ts N) (hL : ∀ l, L l → l.isRealisable = true)
    (hlb : lb.isRealisable = true) (hle : le.isRealisable = true) (hc : c ∈ N.transitions) :
    c.Regular := by
  rw [h.transitions, List.mem_append] at hc
  obtain hc | hc := hc
  · rw [inner, List.cons_append, List.mem_cons, List.mem_append, List.mem_singleton] at hc
    obtain rfl | hc | rfl := hc
    · exact Transition.regular_of_inScope (.inr hlb) rfl
    · exact Transition.regular_of_inScope ((h.laid c hc).label.imp_right (hL _)) (h.laid c hc).inScope
    · exact Transition.regular_of_inScope (.inr hle) rfl
  · obtain ⟨u, _, hstray⟩ := List.mem_filterMap.mp hc
    exact Transition.stray_regular hstray

end Bounded

/-! ## In the DFA -/

theorem state_reached (hB : constructDFA N fuel = some B) {st : State}
    (hst : B.graph.states[d]? = some st) :
    ∃ S w, B.find S = some d ∧ st.name = S.ids ∧ S.ReachedBy N w := by
  obtain ⟨hinv, _⟩ := constructDFA_spec hB
  obtain ⟨S, hS⟩ := find_of_lt hB (List.getElem?_eq_some_iff.mp hst).1
  obtain ⟨w, hw⟩ := find_reached hB hS
  obtain ⟨flags, hflags, hids⟩ := hinv.names S d hS
  have hget : B.graph.flags[d]? = some (st.start, st.accept, st.name) := by
    rw [Graph.flags, List.getElem?_map, hst]
    rfl
  obtain rfl := Option.some.inj (hget.symm.trans hflags)
  exact ⟨S, w, hS, hids, hw⟩

/-- The first of its letter gives a transition all but its ends. -/
theorem out_origin (hN : ∀ t ∈ N.transitions, t.Regular) (hB : constructDFA N fuel = some B)
    (hS : B.find S = some d) (ht : t ∈ B.graph.out d) :
    ∃ u, FirstOf (S.ids.flatMap N.out) u ∧
      t.1 = { u.1 with source := t.1.source, dest := t.1.dest } := by
  obtain ⟨hmem, hsource⟩ := Graph.mem_out.mp ht
  obtain ⟨S', u, hS', hu, heq⟩ := origin hN hB (List.fst_mem_of_mem_zipIdx hmem)
  rw [hsource] at hS'
  obtain rfl := (constructDFA_spec hB).1.find_inj hS hS'
  exact ⟨u, hu, heq⟩

theorem transition_origin (hN : ∀ t ∈ N.transitions, t.Regular) (hB : constructDFA N fuel = some B)
    (hc : c ∈ B.graph.transitions) :
    ∃ (S : NFAState) (w : List Letter) (u : Transition × ℕ), S.ReachedBy N w ∧ FirstOf (S.ids.flatMap N.out) u ∧
      c = { u.1 with source := c.source, dest := c.dest } := by
  obtain ⟨S, u, hS, hu, heq⟩ := origin hN hB hc
  obtain ⟨w, hw⟩ := find_reached hB hS
  exact ⟨S, w, u, hw, hu, heq⟩

theorem mem_leaving (hu : u ∈ S.ids.flatMap N.out) : u ∈ N.transitions.zipIdx ∧ u.1.source ∈ S.ids := by
  obtain ⟨s, hs, hu⟩ := List.mem_flatMap.mp hu
  obtain ⟨hmem, rfl⟩ := Graph.mem_out.mp hu
  exact ⟨hmem, hs⟩

section Survive

variable (h : Bounded L lb le f n ts N) (hN : ∀ t ∈ N.transitions, t.Regular)
  (hx : lb.letter = some x) (hy : le.letter = some y) (hB : constructDFA N fuel = some B)

include h in
/-- The beginning leaves the first state, and nothing else does. -/
theorem init_of_leaving (hw : S.ReachedBy N w) (hu : u ∈ S.ids.flatMap N.out)
    (hinit : u.1.init = true) (hv : v ∈ S.ids.flatMap N.out) : v.1.init = true := by
  obtain ⟨hmem, hs⟩ := mem_leaving hu
  obtain heq | ⟨hinit', _⟩ := h.source_pos (List.fst_mem_of_mem_zipIdx hmem)
  · rw [heq, hw] at hs
    obtain ⟨s, hs', hv⟩ := List.mem_flatMap.mp hv
    obtain rfl := (h.reached_zero hs).mp ((hw s).mp hs')
    rw [h.out_zero hv]
  · rw [hinit] at hinit'
    cases hinit'

include h hy in
theorem letter_of_cleanup (hu : u ∈ S.ids.flatMap N.out) (hcleanup : u.1.cleanup = true) :
    u.1.label.letter = some y := by
  obtain ⟨_, _, hlabel⟩ | ⟨hcleanup', _⟩ :=
    h.cleanup_iff (List.fst_mem_of_mem_zipIdx (mem_leaving hu).1)
  · rw [hlabel, hy]
  · rw [hcleanup] at hcleanup'
    cases hcleanup'

include h hN hB in
theorem init_survives {st : State} (hst : B.graph.states[d]? = some st) (ht : t ∈ B.graph.out d) :
    t.1.init = true ↔ ∃ u ∈ st.name.flatMap N.out, u.1.label.letter = t.1.label.letter ∧
      u.1.init = true := by
  obtain ⟨S, w, hS, hname, hw⟩ := state_reached hB hst
  obtain ⟨u, hu, heq⟩ := out_origin hN hB hS ht
  rw [hname, heq]
  constructor
  · exact fun hinit => ⟨u, hu.mem, rfl, hinit⟩
  · rintro ⟨v, hv, _, hinit⟩
    exact init_of_leaving h hw hv hinit hu.mem

include h hN hy hB in
theorem cleanup_survives (hends : EndsFirst N y) {st : State} (hst : B.graph.states[d]? = some st)
    (ht : t ∈ B.graph.out d) :
    t.1.cleanup = true ↔ ∃ u ∈ st.name.flatMap N.out, u.1.label.letter = t.1.label.letter ∧
      u.1.cleanup = true := by
  obtain ⟨S, w, hS, hname, hw⟩ := state_reached hB hst
  obtain ⟨u, hu, heq⟩ := out_origin hN hB hS ht
  rw [hname, heq]
  constructor
  · exact fun hcleanup => ⟨u, hu.mem, rfl, hcleanup⟩
  · rintro ⟨v, hv, hletter, hcleanup⟩
    exact hends.cleanup hw hu (hletter.symm.trans (letter_of_cleanup h hy hv hcleanup))

include h hy in
/-- The end is the last to leave a state, so its flag is not carried on. -/
theorem not_carried (hends : EndsFirst N y) {ds : ℕ} {before M : List (Transition × ℕ)} {a : Letter}
    {F : Frontier} (hmaking : Making N fuel S ds before t M a F B) (hw : S.ReachedBy N w) :
    ¬ Carried N S before t.1.source N.isAccepting := by
  rintro ⟨pre, v, post, b, rfl, hsource, hb, hpre, u, hu, hub, haccept⟩
  -- what leads to the end reads it
  have hby : b = y := by
    obtain ⟨hcleanup, _⟩ | ⟨_, hdest⟩ := h.cleanup_iff (List.fst_mem_of_mem_zipIdx (mem_leaving hu).1)
    · exact Option.some.inj (hub.symm.trans (letter_of_cleanup h hy hu hcleanup))
    · exact absurd (h.isAccepting_iff.mp haccept) hdest
  subst hby
  have hsplit : S.ids.flatMap N.out = pre ++ v :: (post ++ t :: M) := by
    rw [hmaking.split, List.append_assoc, List.cons_append]
  have hfirst : FirstOf (S.ids.flatMap N.out) v := ⟨pre, _, hsplit, by rw [hb]; exact hpre⟩
  have hcleanup := hends.cleanup hw hfirst hb
  have ht : t ∈ S.ids.flatMap N.out := by
    rw [hsplit]
    exact List.mem_append_right _ (List.mem_cons_of_mem _ (List.mem_append_right _ List.mem_cons_self))
  have hprec : Precedes v t := by
    have hsorted := leaving_sorted N S
    rw [hsplit] at hsorted
    exact (List.pairwise_cons.mp (List.pairwise_append.mp hsorted).2.1).1 t
      (List.mem_append_right _ List.mem_cons_self)
  have hlt : v.2 < t.2 := by
    obtain hlt | ⟨_, hlt⟩ := hprec
    · omega
    · exact hlt
  have hlabel := h.nothing_after (mem_leaving hfirst.mem).1 (mem_leaving ht).1 hcleanup hsource hlt
  -- and `t` is the first of its letter
  refine hmaking.first v (List.mem_append_right _ List.mem_cons_self) ?_
  rw [hb, ← hmaking.letter, hlabel, hy]

include h hy hB in
theorem accept_survives (hends : EndsFirst N y) {st : State} (hst : B.graph.states[d]? = some st) :
    st.accept = true ↔ ∃ s ∈ st.name, N.isAccepting s = true := by
  have hle := h.le
  have hreject : ∀ s, s ≠ n → N.isAccepting s = false := fun s hs =>
    Bool.eq_false_iff.mpr fun h' => hs (h.isAccepting_iff.mp h')
  obtain ⟨S, w, hS, hname, _⟩ := state_reached hB hst
  have hget : B.graph.flags[d]? = some (st.start, st.accept, st.name) := by
    rw [Graph.flags, List.getElem?_map, hst]
    rfl
  -- the flag comes with a state that has it, and not from an earlier transition
  have hfirst : ∀ {F}, Frontier.collect N fuel ⟨∅, false, false⟩ 0 = some F →
      F.final = true → n ∈ F.states.ids := by
    intro F hF hfinal
    rw [(collect_flags hF).2, hreject 0 (by omega)] at hfinal
    cases hfinal
  have hmake : ∀ {S ds before t M a F B w}, Making N fuel S ds before t M a F B →
      S.ReachedBy N w → F.final = true → n ∈ F.states.ids := by
    intro S ds before t M a F B w hmaking hw hfinal
    obtain ⟨u, hu, ha, haccept⟩ | hcarried := hmaking.final hfinal
    · obtain rfl := h.isAccepting_iff.mp haccept
      exact (hmaking.states _).mpr ⟨u, hu, ha, .nil _⟩
    · exact absurd hcarried (not_carried h hy hends hmaking hw)
  constructor
  · intro haccept
    obtain ⟨_, final, _, hget', _, hfinal⟩ :=
      flags_rule (P := fun _ final S => final = true → n ∈ S.ids) hfirst hmake hB hS
    have hsame : final = st.accept :=
      (Prod.mk.inj (Prod.mk.inj (Option.some.inj (hget'.symm.trans hget))).2).1
    exact ⟨n, hname ▸ hfinal (hsame.trans haccept), h.isAccepting_iff.mpr rfl⟩
  · rintro ⟨s, hs, haccept⟩
    rw [hname] at hs
    have hd := isAccepting_of_mem (fun p q hstep => hreject q (h.nullStep hstep).2.ne)
      (hreject 0 (by omega)) hB hS hs haccept
    rwa [Graph.isAccepting_eq, hget] at hd

include hN hB in
/-- What the NFA says of all that reads a letter, the DFA says of all that reads it. -/
theorem transition_of_leaving {P : Transition → Prop} {o : Option Letter}
    (hP : ∀ {t p q}, P t → P { t with source := p, dest := q })
    (hfirst : ∀ {S w u}, NFAState.ReachedBy S N w → FirstOf (S.ids.flatMap N.out) u →
      u.1.label.letter = o → P u.1)
    (hc : c ∈ B.graph.transitions) (hletter : c.label.letter = o) : P c := by
  obtain ⟨S, w, u, hw, hu, heq⟩ := transition_origin hN hB hc
  rw [heq] at hletter ⊢
  exact hP (hfirst hw hu hletter)

/-- A class of transitions that all read one letter. -/
theorem exists_class (it : Iteration) {ts : List Transition} (hc : c ∈ ts) :
    ∃ cl ∈ groupClasses it ts, c ∈ cl ∧ ∃ head ∈ ts, it.head cl = some head ∧
      head.label.letter = c.label.letter := by
  have hgrouped := grouped it ts
  obtain ⟨cl, hcl, hmem⟩ := hgrouped.cover c hc
  obtain ⟨head, hhead, hget⟩ := it.head_isSome (hgrouped.nonempty cl hcl)
  obtain ⟨hts, hletter⟩ := (hgrouped.mem_iff hcl hmem).mp hhead
  exact ⟨cl, hcl, hmem, head, hts, hget, hletter⟩

include hB in
/-- Whatever the NFA can read is read by a transition of the DFA. -/
theorem exists_out (hs : s ∈ N.reached w) (ht : t ∈ N.out s) {a : Letter}
    (ha : t.1.label.letter = some a) :
    ∃ S d, B.find S = some d ∧ S.ReachedBy N w ∧ ∃ c ∈ B.graph.out d, c.1.label.letter = some a := by
  obtain ⟨hinv, hempty⟩ := constructDFA_spec hB
  obtain ⟨d, hd⟩ := (reached_nonempty_iff hinv hempty).mpr ⟨s, hs⟩
  obtain ⟨S, hS, hw⟩ := reached_find hinv hempty hd
  have hmade := (hinv.complete hempty hS).total t (List.mem_flatMap.mpr ⟨s, (hw s).mpr hs, ht⟩) a ha
  obtain ⟨c, hc, hca⟩ := List.mem_map.mp hmade
  exact ⟨S, d, hS, hw, c, hc, hca⟩

include h hN hx hB in
theorem begins_survives (it : Iteration) (hbegins : BeginsOnly N x) :
    (Automaton.init it B.graph).isSome := by
  obtain ⟨i, hi⟩ := h.begins_mem
  obtain ⟨_, d, _, _, c, hc, hcx⟩ := exists_out hB (Graph.mem_reached.mpr (.nil 0)) hi hx
  obtain ⟨cl, hcl, _, head, hts, hget, hletter⟩ :=
    exists_class it (List.fst_mem_of_mem_zipIdx (Graph.mem_out.mp hc).1)
  have hinit : head.init = true := by
    refine transition_of_leaving hN hB (P := fun t => t.init = true) id ?_ hts
      (hletter.trans hcx)
    intro S w u hw hu hux
    obtain ⟨s, hs, hmem⟩ := List.mem_flatMap.mp hu.mem
    exact hbegins w s ((hw s).mp hs) u hmem hux
  rw [Automaton.init, List.findSome?_isSome_iff]
  refine ⟨cl, hcl, ?_⟩
  rw [hget, Option.filter_some_pos hinit]
  rfl

include h hN hy hB in
theorem ends_survives (it : Iteration) (hends : EndsFirst N y) :
    c ∈ Automaton.cleanup it B.graph ↔ c ∈ B.graph.transitions ∧ c.cleanup = true := by
  have hcleans : ∀ c ∈ B.graph.transitions, c.label.letter = some y → c.cleanup = true :=
    fun c => transition_of_leaving hN hB (P := fun t => t.cleanup = true) id
      fun hw hu huy => hends.cleanup hw hu huy
  have hreads : ∀ c ∈ B.graph.transitions, c.cleanup = true → c.label.letter = some y := by
    intro c hc hcleanup
    obtain ⟨S, w, u, _, hu, heq⟩ := transition_origin hN hB hc
    rw [heq] at hcleanup ⊢
    exact letter_of_cleanup h hy hu.mem hcleanup
  have hgrouped := grouped it B.graph.transitions
  rw [Automaton.cleanup]
  cases hfind : (groupClasses it B.graph.transitions).find? fun c => (it.head c).any (·.cleanup) with
  | none =>
    refine iff_of_false List.not_mem_nil ?_
    rintro ⟨hc, hcleanup⟩
    obtain ⟨cl, hcl, _, head, hts, hget, hletter⟩ := exists_class it hc
    have hnone := List.find?_eq_none.mp hfind cl hcl
    rw [hget] at hnone
    exact hnone (hcleans head hts (hletter.trans (hreads c hc hcleanup)))
  | some cl =>
    have hcl := List.mem_of_find?_eq_some hfind
    have hany := List.find?_some hfind
    obtain ⟨head, hget, hcleanup⟩ := (Option.any_eq_true _ _).mp hany
    have hhead := Iteration.mem_of_head hget
    have hy' := hreads head ((hgrouped.mem_iff hcl hhead).mp hhead).1 hcleanup
    rw [Option.getD_some, hgrouped.mem_iff hcl hhead, hy']
    constructor
    · exact fun ⟨hc, hletter⟩ => ⟨hc, hcleans c hc hletter⟩
    · exact fun ⟨hc, hcleanup⟩ => ⟨hc, hreads c hc hcleanup⟩

/-- Initialisations last. -/
def Iteration.plainFirst : Iteration :=
  ⟨fun c => c.filter (!·.init) ++ c.filter (!!·.init), fun c => List.filter_append_perm (!·.init) c⟩

theorem Iteration.plainFirst_head {cl : List Transition} {head : Transition}
    (hget : Iteration.plainFirst.head cl = some head) (hinit : head.init = true) (hc : c ∈ cl) :
    c.init = true := by
  by_contra hplain
  have hmem : c ∈ cl.filter (!·.init) := List.mem_filter.mpr ⟨hc, by simpa using hplain⟩
  obtain ⟨c', rest, hrest⟩ := List.exists_cons_of_ne_nil (List.ne_nil_of_mem hmem)
  have hget' : head = c' := by
    have hhead : (cl.filter (!·.init) ++ cl.filter (!!·.init)).head? = some head := hget
    rw [hrest] at hhead
    exact (Option.some.inj hhead).symm
  have hmem' : c' ∈ cl.filter (!·.init) := by
    rw [hrest]
    exact List.mem_cons_self
  have := (List.mem_filter.mp hmem').2
  rw [← hget', hinit] at this
  cases this

include h hN hx hB in
theorem beginsOnly_of_survive (hsurvive : LifetimesSurvive .plainFirst N B.graph) :
    BeginsOnly N x := by
  intro w s hs t ht htx
  obtain ⟨S, d, hS, hw, c, hc, hcx⟩ := exists_out hB hs ht htx
  obtain ⟨u, hu, heq⟩ := out_origin hN hB hS hc
  have htS : t ∈ S.ids.flatMap N.out := List.mem_flatMap.mpr ⟨s, (hw s).mpr hs, ht⟩
  suffices hinit : c.1.init = true by
    rw [heq] at hinit
    exact init_of_leaving h hw hu.mem hinit htS
  -- a class that begins the lifetime has initialisations only, and reads the beginning
  obtain ⟨cl, hcl, hsome⟩ := List.findSome?_isSome_iff.mp hsurvive.begins
  obtain ⟨head, hhead⟩ := Option.isSome_iff_exists.mp hsome
  obtain ⟨hget, hinit⟩ := Option.filter_eq_some_iff.mp hhead
  have hgrouped := grouped .plainFirst B.graph.transitions
  have hmem := Iteration.mem_of_head hget
  refine Iteration.plainFirst_head hget hinit ((hgrouped.mem_iff hcl hmem).mpr ⟨?_, ?_⟩)
  · exact List.fst_mem_of_mem_zipIdx (Graph.mem_out.mp hc).1
  · obtain ⟨S', w', v, hw', hv, heq'⟩ :=
      transition_origin hN hB ((hgrouped.mem_iff hcl hmem).mp hmem).1
    rw [heq'] at hinit ⊢
    obtain heq'' | ⟨hplain, _⟩ :=
      h.source_pos (List.fst_mem_of_mem_zipIdx (mem_leaving hv.mem).1)
    · rw [hcx, heq'', hx]
    · rw [hplain] at hinit
      cases hinit

include h hN hy hB in
theorem endsFirst_of_survive (hsurvive : LifetimesSurvive it N B.graph) : EndsFirst N y := by
  intro w s hs t ht hty
  by_contra hnot
  rw [not_or] at hnot
  obtain ⟨hplain, hfirst⟩ := hnot
  obtain ⟨S, d, hS, hw, c, hc, hcy⟩ := exists_out hB hs ht hty
  obtain ⟨u, hu, heq⟩ := out_origin hN hB hS hc
  have huy : u.1.label.letter = some y := by
    rw [heq] at hcy
    exact hcy
  -- what this one is a copy of does not clean up
  have hucleanup : u.1.cleanup ≠ true := by
    intro hcleanup
    obtain ⟨s', hs', hus⟩ := List.mem_flatMap.mp hu.mem
    have htS : t ∈ S.ids.flatMap N.out := List.mem_flatMap.mpr ⟨s, (hw s).mpr hs, ht⟩
    have hnot : ¬ Precedes u t := fun hprec =>
      hfirst ⟨s', (hw s').mp hs', u, hus, huy, hcleanup, hprec⟩
    have hnot' : ¬ Precedes t u :=
      hu.not_precedes (leaving_sorted N S) htS (hty.trans huy.symm)
    have hut : u.2 = t.2 := by
      rw [Precedes] at hnot hnot'
      omega
    have hget := List.mk_mem_zipIdx_iff_getElem?.mp (mem_leaving hu.mem).1
    have hget' := List.mk_mem_zipIdx_iff_getElem?.mp (mem_leaving htS).1
    rw [hut] at hget
    rw [Option.some.inj (hget.symm.trans hget')] at hcleanup
    exact hplain hcleanup
  -- but it is in the class of one that does
  obtain ⟨w', hf, i, hi⟩ := h.ends_reached
  obtain ⟨S', d', hS', hw', c', hc', hcy'⟩ := exists_out hB hf hi hy
  obtain ⟨st, hst⟩ : ∃ st, B.graph.states[d']? = some st := by
    obtain ⟨flags, hflags, _⟩ := (constructDFA_spec hB).1.names S' d' hS'
    rw [Graph.flags, List.getElem?_map] at hflags
    obtain ⟨st, hst, _⟩ := Option.map_eq_some_iff.mp hflags
    exact ⟨st, hst⟩
  obtain ⟨S'', _, hS'', hname, _⟩ := state_reached hB hst
  obtain rfl := (constructDFA_spec hB).1.find_inj hS' hS''
  have hcleanup' : c'.1.cleanup = true := by
    have hleaving : (⟨f, n, le, false, true, false⟩, i) ∈ st.name.flatMap N.out := by
      rw [hname]
      exact List.mem_flatMap.mpr ⟨f, (hw' f).mpr hf, hi⟩
    exact (hsurvive.cleanup d' st hst c' hc').mpr ⟨_, hleaving, hy.trans hcy'.symm, rfl⟩
  have hmem' := (hsurvive.ends c'.1).mpr
    ⟨List.fst_mem_of_mem_zipIdx (Graph.mem_out.mp hc').1, hcleanup'⟩
  have hmem : c.1 ∈ Automaton.cleanup it B.graph := by
    rw [Automaton.cleanup] at hmem' ⊢
    cases hfind : (groupClasses it B.graph.transitions).find?
        fun c => (it.head c).any (·.cleanup) with
    | none =>
      rw [hfind] at hmem'
      cases hmem'
    | some cl =>
      rw [hfind] at hmem'
      have hcl := List.mem_of_find?_eq_some hfind
      refine ((grouped it B.graph.transitions).mem_iff hcl hmem').mpr ⟨?_, hcy.trans hcy'.symm⟩
      exact List.fst_mem_of_mem_zipIdx (Graph.mem_out.mp hc).1
  have hcleanup := ((hsurvive.ends c.1).mp hmem).2
  rw [heq] at hcleanup
  exact hucleanup hcleanup

end Survive

section Link

variable {xorOnly : Bool} {a : AutomatonDescription} {use : Usage} {descriptions : AutomataMap}
  {b e : Expression} {rounds : ℕ}

/-- With a beginning and an end, the lifetime survives the conversion, however sets are
walked, if and only if nothing else that can happen is the beginning, and wherever the end
can be read the end itself is the first to read it. -/
theorem lifetimes_survive_iff (hN : NFA.link xorOnly a (some use) descriptions fuel = .ok N)
    (hb : use.beginning = some b) (he : use.ending = some e) (hx : b.event = some x)
    (hy : e.event = some y) (hD : DFA.convert N rounds = some D) :
    (∀ it, LifetimesSurvive it N D) ↔ BeginsOnly N x ∧ EndsFirst N y := by
  obtain ⟨lb, le, f, n, ts, hlb, hle, hbe, hee, h⟩ := parseAutomaton_bounded hb he hN
  rw [hx] at hbe
  rw [hy] at hee
  have hregular : ∀ t ∈ N.transitions, t.Regular := fun t =>
    h.regular (fun l hl => labels_realisable hl) (label_realisable hlb) (label_realisable hle)
  obtain ⟨B, hB, rfl⟩ := Option.map_eq_some_iff.mp hD
  constructor
  · intro hall
    exact ⟨beginsOnly_of_survive h hregular hbe.symm hB (hall .plainFirst),
      endsFirst_of_survive h hregular hee.symm hB (hall .insertion)⟩
  · rintro ⟨hbegins, hends⟩ it
    exact ⟨fun d st hst t ht => init_survives h hregular hB hst ht,
      fun d st hst t ht => cleanup_survives h hregular hee.symm hB hends hst ht,
      fun d st hst => accept_survives h hee.symm hB hends hst,
      begins_survives h hregular hbe.symm hB it hbegins,
      fun t => ends_survives h hregular hee.symm hB it hends⟩

end Link

/-- It is so when no other event equals a bound. -/
theorem beginsOnly_of_forall
    (h : ∀ t ∈ N.transitions, t.label.letter = some x → t.init = true) : BeginsOnly N x :=
  fun _ _ _ t ht => h t.1 (List.fst_mem_of_mem_zipIdx (Graph.mem_out.mp ht).1)

theorem endsFirst_of_forall
    (h : ∀ t ∈ N.transitions, t.label.letter = some y → t.cleanup = true) : EndsFirst N y :=
  fun _ _ _ t ht hty => .inl (h t.1 (List.fst_mem_of_mem_zipIdx (Graph.mem_out.mp ht).1) hty)

theorem lifetimes_survive_iff_sharedPrefix :
    ∃ D, DFA.convert linkedSharedPrefix 12 = some D ∧
      ∀ it, LifetimesSurvive it linkedSharedPrefix D := by
  have hsome : (DFA.convert linkedSharedPrefix 12).isSome = true := by decide +kernel
  obtain ⟨D, hD⟩ := Option.isSome_iff_exists.mp hsome
  have hlink : NFA.link false sharedPrefix (some withinCall) (fun _ => none) 4 =
    .ok linkedSharedPrefix := rfl
  have hb : withinCall.beginning = some (.function (Parser.callTo "enter")) := rfl
  have he : withinCall.ending = some (.function (Parser.callTo "leave")) := rfl
  refine ⟨D, hD, (lifetimes_survive_iff hlink hb he rfl rfl hD).mpr ⟨?_, ?_⟩⟩
  · exact beginsOnly_of_forall (by decide +kernel)
  · exact endsFirst_of_forall (by decide +kernel)

/-- Within a call, it has to be left once before it is left. -/
def leaveTwice : AutomatonDescription :=
  { optionalLoop with expression := .function (Parser.callTo "leave") }

def linkedLeaveTwice : Graph :=
  ((NFA.link false leaveTwice (some withinCall) (fun _ => none) 2).toOption).getD .empty

/-- The class that reads the end has the event of the expression at its head, so no class
is found to clean up. -/
theorem leave_twice_is_not_cleaned_up :
    NFA.link false leaveTwice (some withinCall) (fun _ => none) 2 = .ok linkedLeaveTwice ∧
      ∃ D, DFA.convert linkedLeaveTwice 6 = some D ∧ Automaton.cleanup .insertion D = [] ∧
        ¬ LifetimesSurvive .insertion linkedLeaveTwice D := by
  have hrun : (DFA.convert linkedLeaveTwice 6).map (fun D =>
      ((Automaton.cleanup .insertion D).isEmpty, D.transitions.any (·.cleanup))) =
        some (true, true) := by decide +kernel
  obtain ⟨D, hD, hpair⟩ := Option.map_eq_some_iff.mp hrun
  obtain ⟨hempty, hany⟩ := Prod.mk.inj hpair
  have hnil : Automaton.cleanup .insertion D = [] := List.isEmpty_iff.mp hempty
  refine ⟨rfl, D, hD, hnil, ?_⟩
  intro hsurvive
  obtain ⟨t, ht, hcleanup⟩ := List.any_eq_true.mp hany
  have hmem := (hsurvive.ends t).mpr ⟨ht, hcleanup⟩
  rw [hnil] at hmem
  cases hmem

end Tesla.Automata
