/-
# `Tesla.Automata.Bindings` — what the masks of a DFA say

A state of the DFA gets its references from the transition that is registered first, and
keeps them.  So its mask has the variables bound along one way to its set of NFA
states: the way on which the construction met the set, which visits no set twice
(`Trail`).  The masks speak for every way just when it does not matter which one that is:

    BindsAlike   two trails to the same set bind the same variables
    BindsNamed   what an event in scope names is bound wherever it leads

An event binds its arguments and its receiver, of the variables that the automaton has;
the expected return value is named and not bound.
-/
import Tesla.Automata.Assertions

namespace Tesla.Automata

open Lib

variable {N G : Graph} {fuel d ds i n : ℕ} {l : Label} {ls ls' : List Label} {R : References}
  {S S' : NFAState} {Ss Ss' : List NFAState} {t u : Transition × ℕ} {before M : List (Transition × ℕ)}
  {a : Letter} {F : Frontier} {B : DFABuilder} {st : State}

/-! ## Masks -/

/-- The arguments that an event names. -/
def Label.named (l : Label) : List Argument :=
  l.arguments ++ l.receiver.toList ++
    match l with
    | .fn ev => ev.expectedReturnValue.toList
    | .null | .assertSite .. | .fieldAssign _ | .subAutomaton _ => []

/-- Their indices, of those that have one. -/
def Label.variables (l : Label) : List ℕ :=
  l.named.filterMap fun a => if a.argIndex < 0 then none else some a.argIndex.toNat

/-- `State::Mask` of a state of the graph. -/
def Graph.maskAt (g : Graph) (s : ℕ) : List ℕ := ((g.states[s]?).map State.mask).getD []

/-- Apart from the end of its lifetime, an automaton knows nothing but what it knew and
what the event names, and all of that when the event is in scope. -/
def Graph.TracksBindings (g : Graph) : Prop :=
  ∀ t ∈ g.transitions, t.cleanup = false →
    (∀ i ∈ g.maskAt t.dest, i ∈ g.maskAt t.source ∨ i ∈ t.label.variables) ∧
      (t.outOfScope = false → ∀ i ∈ t.label.variables, i ∈ g.maskAt t.dest)

instance (g : Graph) : Decidable g.TracksBindings :=
  inferInstanceAs (Decidable (∀ t ∈ g.transitions, _))

def References.Knows (R : References) (i : ℕ) : Prop := ∃ a, R[i]? = some (some a)

theorem References.not_knows_replicate : ¬ References.Knows (List.replicate n none) i := by
  rintro ⟨a, ha⟩
  rw [List.getElem?_replicate] at ha
  split at ha
  · cases Option.some.inj ha
  · cases ha

theorem referencesThusFar_knows :
    References.Knows (referencesThusFar l R) i ↔
      (i < R.length ∧ (l.binds i).isSome) ∨ R.Knows i := by
  simp only [References.Knows, referencesThusFar, List.getElem?_mapIdx, Option.map_eq_some_iff]
  constructor
  · rintro ⟨a, old, hold, ha⟩
    obtain hnew | ⟨_, rfl⟩ := Option.or_eq_some_iff.mp ha
    · exact .inl ⟨(List.getElem?_eq_some_iff.mp hold).1, Option.isSome_of_mem hnew⟩
    · exact .inr ⟨a, hold⟩
  · rintro (⟨hlt, hbinds⟩ | ⟨a, ha⟩)
    · obtain ⟨a, ha⟩ := Option.isSome_iff_exists.mp hbinds
      exact ⟨a, R[i], List.getElem?_eq_getElem hlt, by rw [ha, Option.some_or]⟩
    · obtain hnone | ⟨b, hb⟩ := Option.eq_none_or_eq_some (l.binds i)
      · exact ⟨a, some a, ha, by rw [hnone, Option.none_or]⟩
      · exact ⟨b, some a, ha, by rw [hb, Option.some_or]⟩

/-- With every argument at its own index, the mask has the indices that are known. -/
theorem State.mem_mask (hst : st.refs = some R) (hR : R.Indexed) : i ∈ st.mask ↔ R.Knows i := by
  rw [State.mask, State.references, hst, Option.getD_some, List.mem_filterMap]
  constructor
  · rintro ⟨r, hr, hi⟩
    obtain ⟨j, hj⟩ := List.mem_iff_getElem?.mp hr
    obtain ⟨a, rfl, _⟩ := Option.bind_eq_some_iff.mp hi
    rw [Option.bind_some, hR j a hj, if_neg (by omega), Int.toNat_natCast] at hi
    obtain rfl := Option.some.inj hi
    exact ⟨a, hj⟩
  · rintro ⟨a, ha⟩
    refine ⟨some a, List.mem_of_getElem? ha, ?_⟩
    rw [Option.bind_some, hR i a ha, if_neg (by omega), Int.toNat_natCast]

theorem Graph.mem_maskAt {g : Graph} (hR : g.refsAt d = some R) (hindexed : R.Indexed) :
    i ∈ g.maskAt d ↔ R.Knows i := by
  obtain ⟨st, hst, hrefs⟩ := Option.bind_eq_some_iff.mp hR
  rw [maskAt, hst, Option.map_some, Option.getD_some]
  exact State.mem_mask hrefs hindexed

/-! ## Trails -/

/-- Of what leaves the set `S`, `u` is the first of its letter, and the letter leads
to `S'`. -/
structure Graph.Reads (N : Graph) (S : NFAState) (u : Transition × ℕ) (S' : NFAState) : Prop where
  first : FirstOf (S.ids.flatMap N.out) u
  label : u.1.label ≠ .null
  leads : ∀ x, x ∈ S'.ids ↔ N.Leads (S.ids.flatMap N.out) u.1.label.letter x

/-- A way through the sets that visits none of them twice: the sets, last one first, and
what is read. -/
inductive Graph.Trail (N : Graph) : List NFAState → List Label → Prop where
  | start {S : NFAState} : (∀ x, x ∈ S.ids ↔ Walk N.edges 0 [] x) → Trail N [S] []
  | step {S S' : NFAState} {Ss : List NFAState} {ls : List Label} {u : Transition × ℕ} :
      Trail N (S :: Ss) ls → N.Reads S u S' → S' ∉ S :: Ss →
        Trail N (S' :: S :: Ss) (ls ++ [u.1.label])

/-- Of the variables of the automaton, those that are bound along the way. -/
def Graph.Binds (N : Graph) (ls : List Label) (i : ℕ) : Prop :=
  i < (N.refsFrom 0).length ∧ ∃ l ∈ ls, (l.binds i).isSome

instance (ls : List Label) (i : ℕ) : Decidable (N.Binds ls i) :=
  inferInstanceAs (Decidable (_ ∧ _))

theorem Graph.binds_append {ls₁ ls₂ : List Label} :
    N.Binds (ls₁ ++ ls₂) i ↔ N.Binds ls₁ i ∨ N.Binds ls₂ i := by
  simp only [Binds, List.mem_append, or_and_right, exists_or, and_or_left]

theorem Graph.binds_singleton :
    N.Binds [l] i ↔ i < (N.refsFrom 0).length ∧ (l.binds i).isSome := by
  simp only [Binds, List.mem_singleton, exists_eq_left]

/-- A set on a trail has a trail of its own. -/
theorem Graph.Trail.visited (h : N.Trail Ss ls) (hS : S ∈ Ss) :
    ∃ Ss₁ ls₁ ls₂, N.Trail (S :: Ss₁) ls₁ ∧ ls = ls₁ ++ ls₂ := by
  induction h with
  | @start S₀ hS₀ =>
    obtain rfl := List.mem_singleton.mp hS
    exact ⟨[], [], [], .start hS₀, rfl⟩
  | @step S₀ S' Ss ls u h hreads hnew ih =>
    obtain rfl | hS := List.mem_cons.mp hS
    · exact ⟨S₀ :: Ss, ls ++ [u.1.label], [], h.step hreads hnew, (List.append_nil _).symm⟩
    · obtain ⟨Ss₁, ls₁, ls₂, htrail, rfl⟩ := ih hS
      exact ⟨Ss₁, ls₁, ls₂ ++ [u.1.label], htrail, List.append_assoc ..⟩

/-- What an event binds it names. -/
theorem Label.mem_variables (h : (l.binds i).isSome) : i ∈ l.variables := by
  obtain ⟨a, ha⟩ := Option.isSome_iff_exists.mp h
  refine List.mem_filterMap.mpr ⟨a, List.mem_append_left _ ?_, ?_⟩
  · exact List.mem_reverse.mp (List.mem_of_find?_eq_some ha)
  · rw [binds_argIndex ha, if_neg (by omega), Int.toNat_natCast]

/-- It does not matter which way the construction comes to a set. -/
structure Graph.BindsAlike (N : Graph) : Prop where
  /-- No event leads back to the starting state. -/
  fresh : ∀ t ∈ N.transitions, t.label ≠ .null → N.isStart t.dest = false
  /-- Two trails to a set bind the same variables, unless only the end leads there. -/
  alike : ∀ {S Ss ls u S' Ss₁ ls₁ Ss₂ ls₂}, N.Trail (S :: Ss) ls → N.Reads S u S' →
    u.1.cleanup = false → N.Trail (S' :: Ss₁) ls₁ → N.Trail (S' :: Ss₂) ls₂ →
      ∀ i, N.Binds ls₁ i → N.Binds ls₂ i

/-- Wherever an event in scope leads, on whatever trail, what it names is bound. -/
def Graph.BindsNamed (N : Graph) : Prop :=
  ∀ {S Ss ls u S' Ss' ls'}, N.Trail (S :: Ss) ls → N.Reads S u S' → u.1.cleanup = false →
    u.1.outOfScope = false → N.Trail (S' :: Ss') ls' → ∀ i ∈ u.1.label.variables, N.Binds ls' i

/-! ## The construction -/

theorem Graph.refsAt_congr {g g' : Graph} (h : g.states = g'.states) : g.refsAt = g'.refsAt := by
  funext x
  rw [refsAt, refsAt, h]

namespace Making

theorem reads (h : Making N fuel S ds before t M a F B) : N.Reads S t F.states := by
  obtain ⟨finished, hexp⟩ := h.expanding
  refine ⟨⟨before, M, h.split, ?_⟩, h.label_ne_null, ?_⟩
  · rw [h.letter]
    exact h.first
  · intro x
    rw [h.states, h.letter, hexp.leads_iff h.fresh]

/-- The transition that is made is registered in the graph with the state for the frontier. -/
theorem make_register (h : Making N fuel S ds before t M a F B) :
    ∃ (g : Graph) (c : Transition), (B.make ds t.1 F).graph = g.register c ∧
      g.refsAt = (B.stateForNFAStates F.states F.start F.final).2.graph.refsAt ∧
      c.source = ds ∧ c.dest = (B.stateForNFAStates F.states F.start F.final).1 ∧
      c.label = t.1.label ∧ c.dest < g.states.length := by
  obtain ⟨finished, hexp⟩ := h.expanding
  obtain ⟨g, c, heq, _, hstates, hsource, hdest, hlabel⟩ :=
    @Graph.copy_eq_register t.1 false h.label_ne_null
      (B.stateForNFAStates F.states F.start F.final).2.graph ds
      (B.stateForNFAStates F.states F.start F.final).1
  refine ⟨g, c, heq, Graph.refsAt_congr hstates, hsource, hdest, hlabel, ?_⟩
  have hfound : (B.stateForNFAStates F.states F.start F.final).2.find F.states =
      some (B.stateForNFAStates F.states F.start F.final).1 := stateForNFAStates_found
  obtain ⟨flags, hflags, _⟩ := (hexp.stateFor h.states_ne_nil).inv.names F.states _ hfound
  rw [hdest, hstates, ← Graph.flags_length]
  exact (List.getElem?_eq_some_iff.mp hflags).1

/-- A state keeps the references it has. -/
theorem refsAt_kept (h : Making N fuel S ds before t M a F B) (hstart : F.start = false)
    (hR : B.graph.refsAt d = some R) : (B.make ds t.1 F).graph.refsAt d = some R := by
  obtain ⟨g, c, heq, hg, _, _, _, hdest⟩ := h.make_register
  rw [heq]
  refine Graph.register_kept hdest ?_
  rw [hg, DFABuilder.stateForNFAStates]
  split
  · exact hR
  · simp only [hstart, Bool.false_eq_true, ↓reduceIte]
    rw [Graph.refsAt_newState, hR]

/-- A new state gets its references from the transition for which it is made. -/
theorem refsAt_new (h : Making N fuel S ds before t M a F B) (hstart : F.start = false)
    (hF : B.find F.states = none) (hR : B.graph.refsAt ds = some R) :
    (B.make ds t.1 F).graph.refsAt B.graph.states.length = some (referencesThusFar t.1.label R) := by
  obtain ⟨g, c, heq, hg, hsource, hd, hlabel, hdest⟩ := h.make_register
  have hstate : (B.stateForNFAStates F.states F.start F.final).1 = B.graph.states.length := by
    rw [DFABuilder.stateForNFAStates, hF]
    rfl
  have hrefs : g.refsAt = B.graph.refsAt := by
    funext x
    rw [hg, DFABuilder.stateForNFAStates, hF]
    simp only [hstart, Bool.false_eq_true, ↓reduceIte]
    exact B.graph.refsAt_newState _ _ _ x
  rw [heq, Graph.refsAt_register hdest, if_pos (by rw [hd, hstate]), hd, hstate, hrefs,
    Graph.refsAt_eq_none le_rfl, Option.getD_none, hlabel, hsource, Graph.refsFrom, hrefs, hR,
    Option.getD_some]

end Making

/-- The state `d` for `S` knows what is bound along a trail of sets that have been met. -/
structure DFABuilder.Informed (N : Graph) (B : DFABuilder) (S : NFAState) (d : ℕ) (R : References)
    (Ss : List NFAState) (ls : List Label) : Prop where
  refs : B.graph.refsAt d = some R
  indexed : R.Indexed
  length : R.length = (N.refsFrom 0).length
  trail : N.Trail (S :: Ss) ls
  met : ∀ T ∈ S :: Ss, (B.find T).isSome
  knows : ∀ i, R.Knows i ↔ N.Binds ls i

theorem DFABuilder.Informed.make (h : B.Informed N S' d R Ss ls)
    (hmaking : Making N fuel S ds before t M a F B) (hstart : F.start = false) :
    (B.make ds t.1 F).Informed N S' d R Ss ls := by
  refine ⟨hmaking.refsAt_kept hstart h.refs, h.indexed, h.length, h.trail, ?_, h.knows⟩
  intro T hT
  obtain ⟨d', hd'⟩ := Option.isSome_iff_exists.mp (h.met T hT)
  exact Option.isSome_of_mem (stateForNFAStates_find hd')

/-- A set that is met for the first time prolongs the trail of the set it is met from. -/
theorem DFABuilder.Informed.new (h : B.Informed N S ds R Ss ls)
    (hmaking : Making N fuel S ds before t M a F B) (hstart : F.start = false)
    (hF : B.find F.states = none) :
    (B.make ds t.1 F).Informed N F.states B.graph.states.length (referencesThusFar t.1.label R)
      (S :: Ss) (ls ++ [t.1.label]) := by
  have hnew : F.states ∉ S :: Ss := by
    intro hmem
    have hmet := h.met F.states hmem
    rw [hF] at hmet
    cases hmet
  have hmade := h.make hmaking hstart
  refine ⟨hmaking.refsAt_new hstart hF h.refs, referencesThusFar_indexed _ h.indexed, ?_,
    h.trail.step hmaking.reads hnew, ?_, ?_⟩
  · rw [referencesThusFar_length, h.length]
  · rw [List.forall_mem_cons]
    exact ⟨Option.isSome_of_mem stateForNFAStates_found, hmade.met⟩
  · intro i
    rw [referencesThusFar_knows, h.knows, h.length, Graph.binds_append, Graph.binds_singleton,
      or_comm]

/-- Where no event leads to a starting state, no set is marked as one. -/
theorem Making.not_start (h : Making N fuel S ds before t M a F B)
    (hfresh : ∀ t ∈ N.transitions, t.label ≠ .null → N.isStart t.dest = false) :
    F.start = false := by
  have hleaves : ∀ {b}, ¬ Enters N.isStart (S.ids.flatMap N.out) b := by
    rintro b ⟨u, hu, hb, hflag⟩
    obtain ⟨s, _, hu⟩ := List.mem_flatMap.mp hu
    have hnull : u.1.label ≠ .null := by
      intro hnull
      rw [hnull] at hb
      cases hb
    rw [hfresh u.1 (List.fst_mem_of_mem_zipIdx (Graph.mem_out.mp hu).1) hnull] at hflag
    cases hflag
  refine Bool.eq_false_iff.mpr fun hstart => ?_
  obtain ⟨u, hu, henters⟩ | ⟨_, _, _, b, _, _, _, _, henters⟩ := h.start hstart
  · refine hleaves ⟨u, ?_, henters⟩
    rw [h.split]
    exact List.mem_append_right _ hu
  · exact hleaves henters

theorem informed_first (hstart : N.isStart 0 = true)
    (hF : Frontier.collect N fuel ⟨∅, false, false⟩ 0 = some F) :
    (DFABuilder.first N F).Informed N F.states 0 (List.replicate (N.refsFrom 0).length none) [] [] := by
  have hflag : F.start = true := by rw [(collect_flags hF).1, hstart, Bool.or_true]
  have hcount : ((N.states[0]?).map (·.references.length)).getD 0 = (N.refsFrom 0).length := by
    rw [Graph.refsFrom, Graph.refsAt]
    cases N.states[0]? <;> rfl
  refine ⟨?_, ?_, List.length_replicate, .start ?_, ?_, ?_⟩
  · rw [← hcount]
    simp [DFABuilder.first, DFABuilder.stateForNFAStates, DFABuilder.find, Graph.refsAt,
      Graph.newState, Graph.empty, hflag]
  · intro i a ha
    exact absurd ⟨a, ha⟩ References.not_knows_replicate
  · intro x
    rw [mem_collect hF, or_iff_right NFAState.not_mem_empty]
  · intro T hT
    obtain rfl := List.mem_singleton.mp hT
    exact Option.isSome_of_mem stateForNFAStates_found
  · intro i
    refine iff_of_false References.not_knows_replicate ?_
    rintro ⟨_, l, hl, _⟩
    cases hl

/-- Every state of the DFA is informed. -/
theorem informed (hstart : N.isStart 0 = true)
    (hfresh : ∀ t ∈ N.transitions, t.label ≠ .null → N.isStart t.dest = false)
    (h : constructDFA N fuel = some B) (hS : B.find S = some d) :
    ∃ R Ss ls, B.Informed N S d R Ss ls := by
  let J : DFABuilder → Prop := fun B => ∀ S d, B.find S = some d → ∃ R Ss ls, B.Informed N S d R Ss ls
  refine constructDFA_rule (J := J) ?_ ?_ ?_ ?_ h S d hS
  · intro F hF S d hS
    obtain ⟨rfl, rfl⟩ | hnone := find_stateForNFAStates rfl hS
    · exact ⟨_, _, _, informed_first hstart hF⟩
    · cases hnone
  · intro B unfinished finished hJ S d hS
    obtain ⟨R, Ss, ls, h⟩ := hJ S d hS
    exact ⟨R, Ss, ls, h.refs, h.indexed, h.length, h.trail, h.met, h.knows⟩
  · intro B failed hJ S d hS
    obtain ⟨R, Ss, ls, h⟩ := hJ S d hS
    exact ⟨R, Ss, ls, h.refs, h.indexed, h.length, h.trail, h.met, h.knows⟩
  · intro S ds before t M a F B hmaking hJ S' d hS'
    have hF := hmaking.not_start hfresh
    obtain ⟨finished, hexp⟩ := hmaking.expanding
    cases hfind : B.find F.states with
    | some d' =>
      have hold : B.find S' = some d := by
        rw [DFABuilder.make, stateForNFAStates_of_find hfind] at hS'
        exact hS'
      obtain ⟨R, Ss, ls, h⟩ := hJ S' d hold
      exact ⟨R, Ss, ls, h.make hmaking hF⟩
    | none =>
      obtain ⟨rfl, rfl⟩ | hold := find_stateForNFAStates hfind hS'
      · obtain ⟨R, Ss, ls, h⟩ := hJ S ds hexp.found
        exact ⟨_, _, _, h.new hmaking hF hfind⟩
      · obtain ⟨R, Ss, ls, h⟩ := hJ S' d hold
        exact ⟨R, Ss, ls, h.make hmaking hF⟩

/-! ## The DFA -/

/-- What is bound on a trail to where an event leads was bound before, or is by the
event. -/
theorem Graph.BindsAlike.bound_before (h : N.BindsAlike) (htrail : N.Trail (S :: Ss) ls)
    (hreads : N.Reads S u S') (hclean : u.1.cleanup = false) (htrail' : N.Trail (S' :: Ss') ls')
    (hi : N.Binds ls' i) : N.Binds ls i ∨ i ∈ u.1.label.variables := by
  by_cases hS' : S' ∈ S :: Ss
  · -- the event leads back: the trail has passed there
    obtain ⟨Ss₁, ls₁, ls₂, htrail₁, rfl⟩ := htrail.visited hS'
    refine .inl (binds_append.mpr (.inl ?_))
    exact h.alike htrail hreads hclean htrail' htrail₁ i hi
  · have hi := h.alike htrail hreads hclean htrail' (htrail.step hreads hS') i hi
    obtain hi | hi := binds_append.mp hi
    · exact .inl hi
    · exact .inr (Label.mem_variables (binds_singleton.mp hi).2)

section Convert

variable (hN : ∀ t ∈ N.transitions, t.Regular) (hB : constructDFA N fuel = some B)
include hN hB

/-- A transition of the DFA is one that is read. -/
theorem reads_of_made {c : Transition} (hc : c ∈ B.graph.transitions) :
    ∃ S u S', B.find S = some c.source ∧ B.find S' = some c.dest ∧ N.Reads S u S' ∧
      c = { u.1 with source := c.source, dest := c.dest } := by
  obtain ⟨hinv, hdone⟩ := constructDFA_spec hB
  obtain ⟨i, hi⟩ := List.mem_iff_getElem?.mp hc
  have hout : (c, i) ∈ B.graph.out c.source :=
    Graph.mem_out.mpr ⟨List.mk_mem_zipIdx_iff_getElem?.mpr hi, rfl⟩
  obtain ⟨S, u, hS, hu, heq⟩ := origin hN hB hc
  obtain ⟨a, S', ha, hS', hleads⟩ := (hinv.complete hdone hS).leads (c, i) hout
  have hlabel : c.label = u.1.label := by rw [heq]
  refine ⟨S, u, S', hS, hS', ⟨hu, ?_, ?_⟩, heq⟩
  · intro hnull
    rw [hlabel, hnull] at ha
    cases ha
  · intro x
    rw [hleads, ← hlabel, ha]

/-- What is read from a set with a state has a transition. -/
theorem made_of_reads (hS : B.find S = some d) (h : N.Reads S u S') :
    ∃ d', B.find S' = some d' ∧ { u.1 with source := d, dest := d' } ∈ B.graph.transitions := by
  obtain ⟨hinv, hdone⟩ := constructDFA_spec hB
  obtain ⟨a, ha⟩ := Option.ne_none_iff_exists'.mp (mt Label.letter_eq_none.mp h.label)
  obtain ⟨t, ht, hta⟩ := List.mem_map.mp ((hinv.complete hdone hS).total u h.first.mem a ha)
  obtain ⟨hmem, hsource⟩ := Graph.mem_out.mp ht
  have hc := List.fst_mem_of_mem_zipIdx hmem
  obtain ⟨S₁, v, S₂, hS₁, hS₂, hreads, heq⟩ := reads_of_made hN hB hc
  rw [hsource] at hS₁
  obtain rfl := hinv.find_inj hS hS₁
  have hletter : v.1.label.letter = u.1.label.letter := by
    rw [ha, ← hta, heq]
  obtain rfl := hreads.first.unique h.first hletter
  obtain rfl : S₂ = S' := NFAState.ext_mem fun x => by rw [hreads.leads, h.leads]
  rw [hsource] at heq
  exact ⟨t.1.dest, hS₂, heq ▸ hc⟩

theorem Graph.Trail.found (h : N.Trail (S :: Ss) ls) : ∃ d, B.find S = some d := by
  generalize hSs : S :: Ss = Ss₀ at h
  induction h generalizing S Ss with
  | start hS =>
    obtain ⟨rfl, rfl⟩ := List.cons.inj hSs
    obtain ⟨S₀, hS₀, hmem⟩ := (constructDFA_spec hB).1.start
    obtain rfl : S₀ = S := NFAState.ext_mem fun x => (hmem x).trans (hS x).symm
    exact ⟨0, hS₀⟩
  | step _ hreads _ ih =>
    obtain ⟨rfl, rfl⟩ := List.cons.inj hSs
    obtain ⟨d, hd⟩ := ih rfl
    obtain ⟨d', hd', _⟩ := made_of_reads hN hB hd hreads
    exact ⟨d', hd'⟩

end Convert

/-- The mask of a state has what is bound along one trail. -/
theorem exists_trail (hstart : N.isStart 0 = true) (h : N.BindsAlike)
    (hB : constructDFA N fuel = some B) (hS : B.find S = some d) :
    ∃ Ss ls, N.Trail (S :: Ss) ls ∧ ∀ i, i ∈ B.graph.maskAt d ↔ N.Binds ls i := by
  obtain ⟨R, Ss, ls, hinformed⟩ := informed hstart h.fresh hB hS
  refine ⟨Ss, ls, hinformed.trail, fun i => ?_⟩
  rw [Graph.mem_maskAt hinformed.refs hinformed.indexed, hinformed.knows]

/-- Where it does not matter how a set is met, the masks track what is bound just when
what is named is bound. -/
theorem convert_tracks_iff (hN : ∀ t ∈ N.transitions, t.Regular) (hstart : N.isStart 0 = true)
    (h : N.BindsAlike) (hG : DFA.convert N fuel = some G) : G.TracksBindings ↔ N.BindsNamed := by
  obtain ⟨B, hB, rfl⟩ := Option.map_eq_some_iff.mp hG
  constructor
  · intro htracks S Ss ls u S' Ss' ls' htrail hreads hclean hscope htrail' i hi
    obtain ⟨d, hd⟩ := htrail.found hN hB
    obtain ⟨d', hd', hmade⟩ := made_of_reads hN hB hd hreads
    obtain ⟨Ss₁, ls₁, htrail₁, hmask⟩ := exists_trail hstart h hB hd'
    have hi := (htracks _ hmade hclean).2 hscope i hi
    exact h.alike htrail hreads hclean htrail₁ htrail' i ((hmask i).mp hi)
  · intro hnamed c hc hclean
    obtain ⟨S, u, S', hS, hS', hreads, heq⟩ := reads_of_made hN hB hc
    obtain ⟨Ss, ls, htrail, hmask⟩ := exists_trail hstart h hB hS
    obtain ⟨Ss', ls', htrail', hmask'⟩ := exists_trail hstart h hB hS'
    have hlabel : c.label = u.1.label := by rw [heq]
    have hclean' : u.1.cleanup = false := by rw [← hclean, heq]
    simp only [hmask, hmask', hlabel]
    refine ⟨fun i hi => h.bound_before htrail hreads hclean' htrail' hi, fun hscope i hi => ?_⟩
    have hscope' : u.1.outOfScope = false := by rw [← hscope, heq]
    exact hnamed htrail hreads hclean' hscope' htrail' i hi

/-! ## Linked automata -/

theorem bound_regular {P : Parser} {o : Option Expression} {init cleanup : Bool} {s f : ℕ}
    {g g' : Graph} (hbound : (init || cleanup) = true)
    (h : (match o with
      | some e => P.parse fuel e s init cleanup g
      | none => pure (s, g)) = .ok (f, g'))
    (hg : ∀ t ∈ g.transitions, t.Regular) :
    (∀ t ∈ g'.transitions, t.Regular) ∧ ∃ flags, g'.flags = g.flags ++ flags := by
  cases o with
  | none =>
    obtain ⟨rfl, rfl⟩ := Prod.mk.inj (Except.ok.inj h)
    exact ⟨hg, [], (List.append_nil _).symm⟩
  | some e =>
    obtain ⟨l, _, hlabel, _, heq⟩ := parse_bound hbound h
    obtain ⟨_, _, htrans, hflags⟩ := parseEvent_spec (s := s) l init cleanup g
    rw [heq] at htrans hflags
    refine ⟨?_, _, hflags⟩
    rw [htrans, List.forall_mem_append, List.forall_mem_singleton]
    exact ⟨hg, Transition.regular_of_inScope (.inr (label_realisable hlabel)) rfl⟩

/-- Conversion reproduces the transitions of a linked automaton, which starts in state 0. -/
theorem link_regular {xorOnly : Bool} {d : AutomatonDescription} {use : Option Usage}
    {descriptions : AutomataMap} (h : NFA.link xorOnly d use descriptions fuel = .ok N) :
    (∀ t ∈ N.transitions, t.Regular) ∧ N.isStart 0 = true := by
  obtain ⟨start, g₁, f, g₂, stop, g₃, h₁, h₂, h₃, rfl⟩ := Parser.parseAutomaton_ok h
  obtain ⟨_, htracked, hstart, _⟩ := bound_passes rfl Nat.one_pos (Graph.initial_tracked _) h₁
  obtain ⟨hg₁, flags₁, hflags₁⟩ := bound_regular rfl h₁ fun t ht => absurd ht List.not_mem_nil
  obtain ⟨ts, hgrows, hlaid⟩ :=
    ((NFA.linker xorOnly d descriptions).parse_led fuel _ _ _ _ _ hstart htracked.sources h₂).steps.laid
  have hg₂ : ∀ t ∈ g₂.transitions, t.Regular := by
    rw [hgrows.transitions, List.forall_mem_append]
    refine ⟨hg₁, fun t ht => ?_⟩
    exact Transition.regular_of_inScope ((hlaid t ht).label.imp_right labels_realisable)
      (hlaid t ht).inScope
  obtain ⟨hg₃, flags₃, hflags₃⟩ := bound_regular rfl h₃ hg₂
  obtain ⟨htrans, hflags⟩ := addOutOfScope_spec start stop g₃
  refine ⟨?_, ?_⟩
  · rw [htrans, List.forall_mem_append]
    refine ⟨hg₃, fun t ht => ?_⟩
    obtain ⟨u, _, hstray⟩ := List.mem_filterMap.mp ht
    exact Transition.stray_regular hstray
  · rw [Graph.isStart_eq, hflags, hflags₃, hgrows.flags, hflags₁]
    rfl

/-- The masks of a compiled automaton track what is bound when it does not matter on
which way a set of states is met, and what is named is bound. -/
theorem masks_track_bindings {xorOnly : Bool} {d : AutomatonDescription} {use : Option Usage}
    {descriptions : AutomataMap} {rounds : ℕ} (hlink : NFA.link xorOnly d use descriptions fuel = .ok N)
    (hG : DFA.convert N rounds = some G) (h : N.BindsAlike) :
    G.TracksBindings ↔ N.BindsNamed := by
  obtain ⟨hregular, hstart⟩ := link_regular hlink
  exact convert_tracks_iff hregular hstart h hG

/-! `read (x)`, within a call: there is one way to everything. -/

def readOnce : AutomatonDescription :=
  { reads with expression := .function { Parser.callTo "read" with argument := [variableX] } }

def linkedReadOnce : Graph :=
  ((NFA.link false readOnce (some withinCall) (fun _ => none) 2).toOption).getD .empty

theorem NFAState.ids_eq_singleton {s : ℕ} (h : ∀ x, x ∈ S.ids ↔ x = s) : S.ids = [s] := by
  have hnodup : S.ids.Nodup := S.sorted.imp Nat.ne_of_lt
  refine List.perm_singleton.mp ((List.perm_ext_iff_of_nodup hnodup (List.nodup_singleton s)).mpr ?_)
  intro x
  rw [h, List.mem_singleton]

theorem linkedReadOnce_walk {s x : ℕ} : Walk linkedReadOnce.edges s [] x ↔ x = s := by
  have hnull : ∀ t ∈ linkedReadOnce.transitions, t.label ≠ .null := by decide +kernel
  rw [Graph.walk_nil_iff, or_iff_left]
  rintro ⟨t, ht, hletter, _⟩
  exact hnull t.1 (List.fst_mem_of_mem_zipIdx (Graph.mem_out.mp ht).1)
    (Label.letter_eq_none.mp hletter)

/-- One transition leaves each state but the last, to the next one. -/
theorem linkedReadOnce_out {k : ℕ} (hu : u ∈ linkedReadOnce.out k) :
    k < 3 ∧ linkedReadOnce.transitions[k]? = some u.1 ∧ u.1.dest = k + 1 ∧
      linkedReadOnce.out k = [u] := by
  have hall : ∀ u ∈ linkedReadOnce.transitions.zipIdx, u.1.source < 3 ∧
      linkedReadOnce.transitions[u.1.source]? = some u.1 ∧ u.1.dest = u.1.source + 1 ∧
        linkedReadOnce.out u.1.source = [u] := by decide +kernel
  obtain ⟨hmem, rfl⟩ := Graph.mem_out.mp hu
  exact hall u hmem

theorem linkedReadOnce_reads {k : ℕ} (h : linkedReadOnce.Reads S u S') (hS : S.ids = [k]) :
    k < 3 ∧ linkedReadOnce.transitions[k]? = some u.1 ∧ S'.ids = [k + 1] := by
  obtain ⟨before, M, heq, _⟩ := h.first
  have hleaves : S.ids.flatMap linkedReadOnce.out = linkedReadOnce.out k := by
    rw [hS, List.flatMap_singleton]
  have hu : u ∈ linkedReadOnce.out k := by
    rw [← hleaves, heq]
    exact List.mem_append_right _ List.mem_cons_self
  obtain ⟨hk, hget, hdest, hout⟩ := linkedReadOnce_out hu
  refine ⟨hk, hget, NFAState.ids_eq_singleton ?_⟩
  intro x
  rw [h.leads, hleaves, hout, Graph.Leads]
  simp only [List.mem_singleton, exists_eq_left, true_and]
  rw [linkedReadOnce_walk, hdest]

theorem linkedReadOnce_trail (h : linkedReadOnce.Trail (S :: Ss) ls) :
    ∃ k, S.ids = [k] ∧ ls = (linkedReadOnce.transitions.take k).map (·.label) := by
  generalize hSs : S :: Ss = Ss₀ at h
  induction h generalizing S Ss with
  | start hS =>
    obtain ⟨rfl, rfl⟩ := List.cons.inj hSs
    refine ⟨0, NFAState.ids_eq_singleton fun x => ?_, rfl⟩
    rw [hS, linkedReadOnce_walk]
  | @step S₁ S' Ss₁ ls u _ hreads _ ih =>
    obtain ⟨rfl, rfl⟩ := List.cons.inj hSs
    obtain ⟨k, hk, rfl⟩ := ih rfl
    obtain ⟨_, hget, hids⟩ := linkedReadOnce_reads hreads hk
    refine ⟨k + 1, hids, ?_⟩
    rw [List.take_add_one, hget, Option.toList_some, List.map_append, List.map_singleton]

theorem linkedReadOnce_bindsAlike : linkedReadOnce.BindsAlike := by
  refine ⟨by decide +kernel, ?_⟩
  intro S Ss ls u S' Ss₁ ls₁ Ss₂ ls₂ _ _ _ h₁ h₂ i hi
  obtain ⟨k, hk, rfl⟩ := linkedReadOnce_trail h₁
  obtain ⟨k', hk', rfl⟩ := linkedReadOnce_trail h₂
  obtain rfl : k = k' := List.singleton_inj.mp (hk.symm.trans hk')
  exact hi

theorem linkedReadOnce_bindsNamed : linkedReadOnce.BindsNamed := by
  intro S Ss ls u S' Ss' ls' htrail hreads _ _ htrail' i hi
  obtain ⟨k, hk, rfl⟩ := linkedReadOnce_trail htrail
  obtain ⟨hlt, hget, hids⟩ := linkedReadOnce_reads hreads hk
  obtain ⟨k', hk', rfl⟩ := linkedReadOnce_trail htrail'
  obtain rfl : k + 1 = k' := List.singleton_inj.mp (hids.symm.trans hk')
  have hall : ∀ k < 3, ∀ t ∈ linkedReadOnce.transitions[k]?, ∀ i ∈ t.label.variables,
      linkedReadOnce.Binds ((linkedReadOnce.transitions.take (k + 1)).map (·.label)) i := by
    decide +kernel
  exact hall k hlt u.1 hget i hi

theorem masks_track_bindings_readOnce :
    ∃ G, DFA.convert linkedReadOnce 6 = some G ∧ G.TracksBindings := by
  have hsome : (DFA.convert linkedReadOnce 6).isSome = true := by decide +kernel
  obtain ⟨G, hG⟩ := Option.isSome_iff_exists.mp hsome
  have hlink : NFA.link false readOnce (some withinCall) (fun _ => none) 2 = .ok linkedReadOnce := rfl
  exact ⟨G, hG, (masks_track_bindings hlink hG linkedReadOnce_bindsAlike).mpr
    linkedReadOnce_bindsNamed⟩

/-- A call that returns `x`. -/
def returnsX : AutomatonDescription :=
  { reads with
    expression := .function
      { Parser.callTo "get" with direction := some .exit, expectedReturnValue := some variableX } }

def linkedReturnsX : Graph :=
  ((NFA.link false returnsX (some withinCall) (fun _ => none) 2).toOption).getD .empty

/-- Either a call of `skip` or `read (x)`, then one of `y`. -/
def skipOrRead : AutomatonDescription :=
  { reads with
    expression := .sequence [.booleanExpr .xor (.function (Parser.callTo "skip"))
      (.function { Parser.callTo "read" with argument := [variableX] }),
      .function (Parser.callTo "y")] 1 1 }

def linkedSkipOrRead : Graph :=
  ((NFA.link false skipOrRead (some withinCall) (fun _ => none) 4).toOption).getD .empty

/-- The return value is named and its variable not in the mask; and after the branches
`x` is in the mask also where it is not bound. -/
theorem masks_miss_bindings :
    (NFA.link false returnsX (some withinCall) (fun _ => none) 2 = .ok linkedReturnsX ∧
      ∃ G, DFA.convert linkedReturnsX 6 = some G ∧ ¬ G.TracksBindings) ∧
    NFA.link false skipOrRead (some withinCall) (fun _ => none) 4 = .ok linkedSkipOrRead ∧
      ∃ G, DFA.convert linkedSkipOrRead 12 = some G ∧ ¬ G.TracksBindings := by
  have hreturns : (DFA.convert linkedReturnsX 6).map (fun G => decide G.TracksBindings) =
    some false := by decide +kernel
  have hbranches : (DFA.convert linkedSkipOrRead 12).map (fun G => decide G.TracksBindings) =
    some false := by decide +kernel
  obtain ⟨G, hG, hnot⟩ := Option.map_eq_some_iff.mp hreturns
  obtain ⟨G', hG', hnot'⟩ := Option.map_eq_some_iff.mp hbranches
  exact ⟨⟨rfl, G, hG, of_decide_eq_false hnot⟩, rfl, G', hG', of_decide_eq_false hnot'⟩

/-- With the branches the other way round `y` is met after `skip` first, by chance. -/
def readOrSkip : AutomatonDescription :=
  { reads with
    expression := .sequence [.booleanExpr .xor
      (.function { Parser.callTo "read" with argument := [variableX] })
      (.function (Parser.callTo "skip")), .function (Parser.callTo "y")] 1 1 }

example : ((NFA.link false readOrSkip (some withinCall) (fun _ => none) 4).toOption.bind fun N =>
    (DFA.convert N 12).map fun G => decide G.TracksBindings) = some true := by decide +kernel

end Tesla.Automata
