/-
# `Tesla.Automata.Termination` — when `DFA::Convert` comes to an end

`collectFrontier` keeps no record of where it has been, so it comes back from a state
just when no null transitions lead it round in a circle from there.  It is called on
every state that the NFA can be in, and on no other:

    it comes back from all of them   ⟷   no cycle of null transitions is reachable

The main loop is no obstacle.  A set of NFA states is pushed once, when its DFA state
is made, so there are no more rounds than sets of states:

    rounds left + states made  >  all sets + states pushed       (`constructLoop_total`)
-/
import Tesla.Automata.Building

namespace Tesla.Automata

open Lib Relation

variable {N : Graph} {fuel d ds x s : ℕ} {S S' : NFAState} {B B' : DFABuilder} {a : Letter}
  {F F' : Frontier} {t u : Transition × ℕ} {ts us later before M : List (Transition × ℕ)}
  {finished finished' : List (Transition × ℕ)}

/-! ## States that can be reached -/

def Graph.Reachable (N : Graph) (s : ℕ) : Prop := ∃ w, s ∈ N.reached w

theorem Graph.reachable_zero : N.Reachable 0 := ⟨[], mem_reached.mpr (.nil 0)⟩

theorem Graph.Reachable.walk {w : List Letter} (h : N.Reachable s) (hw : Walk N.edges s w x) :
    N.Reachable x := by
  obtain ⟨v, hv⟩ := h
  exact ⟨v ++ w, mem_reached.mpr ((mem_reached.mp hv).append hw)⟩

theorem Graph.Reachable.dest (h : N.Reachable s) (ht : t ∈ N.out s) : N.Reachable t.1.dest := by
  have hwalk : Walk N.edges t.1.source t.1.label.letter.toList t.1.dest :=
    .edge (mem_edges_iff.mpr ⟨t, by rwa [Transition.edge, (mem_out.mp ht).2], rfl⟩)
  rw [(mem_out.mp ht).2] at hwalk
  exact h.walk hwalk

/-- The first state, and whatever a transition leads to. -/
def Graph.points (N : Graph) : Finset ℕ := insert 0 (N.transitions.map (·.dest)).toFinset

theorem Graph.dest_mem_points {t : Transition} (ht : t ∈ N.transitions) : t.dest ∈ N.points :=
  Finset.mem_insert_of_mem (List.mem_toFinset.mpr (List.mem_map_of_mem ht))

theorem Graph.nullStep_mem_points {p q : ℕ} (h : N.NullStep p q) : q ∈ N.points := by
  obtain ⟨t, ht, _, rfl⟩ := nullStep_iff.mp h
  exact dest_mem_points (List.fst_mem_of_mem_zipIdx (mem_out.mp ht).1)

theorem Graph.Reachable.mem_points (h : N.Reachable s) : s ∈ N.points := by
  obtain ⟨w, hw⟩ := h
  obtain ⟨rfl, _⟩ | ⟨e, he, rfl⟩ := (mem_reached.mp hw).eq_or_entered
  · exact Finset.mem_insert_self 0 _
  · obtain ⟨t, ht, rfl⟩ := List.mem_map.mp he
    exact dest_mem_points ht

/-! ## What is in a set has been collected -/

/-- `collectFrontier` has come back from all the members of all sets. -/
theorem shallow_of_constructDFA (h : constructDFA N fuel = some B) (hS : B.find S = some d)
    (hx : x ∈ S.ids) : Shallow N.NullStep fuel x := by
  let J : DFABuilder → Prop := fun B =>
    ∀ S d, B.find S = some d → ∀ x ∈ S.ids, Shallow N.NullStep fuel x
  refine constructDFA_rule (J := J) ?_ id id ?_ h S d hS x hx
  · intro F hF S d hS x hx
    obtain ⟨rfl, _⟩ := (find_stateForNFAStates rfl hS).resolve_right (fun h => by cases h)
    have hzero : Shallow N.NullStep fuel 0 := collect_isSome.mp (by rw [hF]; rfl)
    rw [mem_collect hF, or_iff_right NFAState.not_mem_empty, Graph.walk_nil_iff_nullSteps] at hx
    exact hzero.of_reflTransGen hx
  · intro S ds before t M a F B hmaking hJ S' d hS' x hx
    obtain rfl | hS' := DFABuilder.find_make hS'
    · obtain ⟨u, hu, ha, hwalk⟩ := (hmaking.states x).mp hx
      exact (hmaking.shallow u hu ha).of_reflTransGen (Graph.walk_nil_iff_nullSteps.mp hwalk)
    · exact hJ S' d hS' x hx

theorem not_cycle_of_convert (h : (DFA.convert N fuel).isSome) (hs : N.Reachable s) :
    ¬ TransGen N.NullStep s s := by
  rw [DFA.convert, Option.isSome_map] at h
  obtain ⟨B, hB⟩ := Option.isSome_iff_exists.mp h
  obtain ⟨hinv, hempty⟩ := constructDFA_spec hB
  obtain ⟨w, hw⟩ := hs
  obtain ⟨d, hd⟩ := (reached_nonempty_iff hinv hempty).mpr ⟨s, hw⟩
  obtain ⟨S, hS, hmem⟩ := reached_find hinv hempty hd
  exact (shallow_of_constructDFA hB hS ((hmem s).mpr hw)).not_cycle

/-! ## The loops come to an end -/

/-- Every set is in the map once, and its members are states that the NFA can be in. -/
structure Kept (N : Graph) (B : DFABuilder) : Prop where
  nodup : (B.dfaStates.map Prod.fst).Nodup
  members : ∀ S d, B.find S = some d → ∀ x ∈ S.ids, N.Reachable x

/-- As many sets are pushed as states are made. -/
def Pushed (B B' : DFABuilder) : Prop :=
  B'.unfinishedStates.length + B.dfaStates.length = B.unfinishedStates.length + B'.dfaStates.length

theorem Kept.card (h : Kept N B) : B.dfaStates.length ≤ 2 ^ N.points.card := by
  have hsub : ∀ S ∈ (B.dfaStates.map Prod.fst).toFinset, S.ids.toFinset ∈ N.points.powerset := by
    intro S hS
    obtain ⟨⟨S, d⟩, hmem, rfl⟩ := List.mem_map.mp (List.mem_toFinset.mp hS)
    have hsome : (B.find S).isSome := by
      rw [DFABuilder.find, List.lookup_isSome_iff]
      exact ⟨(S, d), hmem, beq_self_eq_true S⟩
    obtain ⟨d', hd'⟩ := Option.isSome_iff_exists.mp hsome
    rw [Finset.mem_powerset]
    intro x hx
    exact (h.members S d' hd' x (List.mem_toFinset.mp hx)).mem_points
  have hinj : Set.InjOn (fun S : NFAState => S.ids.toFinset)
      (B.dfaStates.map Prod.fst).toFinset := by
    intro S _ S' _ heq
    refine NFAState.ext_mem fun x => ?_
    rw [← List.mem_toFinset, ← List.mem_toFinset]
    exact iff_of_eq (congrArg (x ∈ ·) heq)
  have hcard := Finset.card_le_card_of_injOn _ hsub hinj
  rwa [List.toFinset_card_of_nodup h.nodup, List.length_map, Finset.card_powerset] at hcard

theorem Kept.noting (h : Kept N B) (failed : List Check) : Kept N (B.noting failed) :=
  ⟨h.nodup, h.members⟩

theorem Pushed.trans {B₁ : DFABuilder} (h : Pushed B B₁) (h' : Pushed B₁ B') : Pushed B B' := by
  rw [Pushed] at *
  omega

theorem Kept.make (h : Kept N B) (ds : ℕ) (t : Transition) (hF : ∀ x ∈ F.states.ids, N.Reachable x) :
    Kept N (B.make ds t F) ∧ Pushed B (B.make ds t F) := by
  refine ⟨⟨?_, ?_⟩, ?_⟩
  · cases hfind : B.find F.states with
    | some d =>
      rw [DFABuilder.make, stateForNFAStates_of_find hfind]
      exact h.nodup
    | none =>
      rw [DFABuilder.make, DFABuilder.stateForNFAStates, hfind]
      refine List.nodup_cons.mpr ⟨?_, h.nodup⟩
      intro hmem
      obtain ⟨⟨S, d⟩, hmem, heq⟩ := List.mem_map.mp hmem
      obtain rfl : S = F.states := heq
      have hne := List.lookup_eq_none_iff.mp hfind (F.states, d) hmem
      rw [bne_self_eq_false] at hne
      cases hne
  · intro S d hS
    obtain rfl | hS := DFABuilder.find_make hS
    · exact hF
    · exact h.members S d hS
  · cases hfind : B.find F.states with
    | some d =>
      rw [DFABuilder.make, stateForNFAStates_of_find hfind]
      rfl
    | none =>
      rw [DFABuilder.make, DFABuilder.stateForNFAStates, hfind]
      show B.unfinishedStates.length + 1 + B.dfaStates.length =
        B.unfinishedStates.length + (B.dfaStates.length + 1)
      omega

theorem collectEquivalent_total {t : Transition} (F : Frontier) (finished : List (Transition × ℕ))
    (B : DFABuilder) (h : ∀ u ∈ us, u.1.label.equivalentTo t.label = true → Shallow N.NullStep fuel u.1.dest) :
    ∃ r, collectEquivalent N fuel t us F finished B = some r := by
  induction us generalizing F finished B with
  | nil => exact ⟨_, rfl⟩
  | cons u us ih =>
    rw [List.forall_mem_cons] at h
    simp only [collectEquivalent]
    split
    · next heq =>
      obtain ⟨F', hF'⟩ := Option.isSome_iff_exists.mp
        ((collect_isSome (F := F)).mpr (h.1 heq))
      rw [hF']
      exact ih F' _ _ h.2
    · exact ih F finished B h.2

section Total

variable (hshallow : ∀ x, N.Reachable x → Shallow N.NullStep fuel x)
include hshallow

theorem expandTransitions_total (ds : ℕ) {X : Expansion}
    (hts : ∀ u ∈ ts ++ later, N.Reachable u.1.dest) (hX : Kept N X.builder) :
    ∃ X', expandTransitions N fuel ds later ts X = some X' ∧ Kept N X'.builder ∧
      Pushed X.builder X'.builder := by
  induction ts generalizing X with
  | nil => exact ⟨X, rfl, hX, rfl⟩
  | cons t ts ih =>
    rw [List.cons_append, List.forall_mem_cons] at hts
    obtain ⟨failed, hcheck⟩ := X.builder.check_eq_noting .realisable t.1.label.isRealisable
    simp only [expandTransitions]
    split
    · exact ih hts.2 hX
    · next hnull =>
      obtain ⟨a, ha⟩ := Option.ne_none_iff_exists'.mp (fun h => hnull (Label.letter_eq_none.mp h))
      rw [hcheck]
      split
      · exact ih hts.2 (hX.noting failed)
      · obtain ⟨F, hF⟩ := Option.isSome_iff_exists.mp
          ((collect_isSome (F := ⟨∅, X.start, X.final⟩)).mpr (hshallow _ hts.1))
        obtain ⟨⟨F', finished', B'⟩, hF'⟩ := collectEquivalent_total (t := t.1) F
          (X.finished ++ [t]) (X.builder.noting failed) (fun u hu _ => hshallow _ (hts.2 u hu))
        obtain ⟨hmem, _, failed', rfl⟩ := collectEquivalent_spec ha hF'
        have hreach : ∀ x ∈ F'.states.ids, N.Reachable x := by
          intro x hx
          rw [hmem, mem_collect hF, or_iff_right NFAState.not_mem_empty] at hx
          obtain hx | ⟨u, hu, _, hx⟩ := hx
          · exact hts.1.walk hx
          · exact (hts.2 u hu).walk hx
        obtain ⟨hkept, hpushed⟩ := ((hX.noting failed).noting failed').make ds t.1 hreach
        obtain ⟨X', hX', hkept', hpushed'⟩ := ih (X := ⟨finished', F'.start, F'.final, _⟩) hts.2 hkept
        rw [hF]
        simp only [Option.bind_eq_bind, Option.bind_some, hF']
        exact ⟨X', hX', hkept', hpushed.trans hpushed'⟩

theorem expandStates_total (ds : ℕ) (finished : List (Transition × ℕ)) {ids : List ℕ}
    (hids : ∀ s ∈ ids, N.Reachable s) (hB : Kept N B) :
    ∃ B', expandStates N fuel ds ids finished B = some B' ∧ Kept N B' ∧ Pushed B B' := by
  induction ids generalizing finished B with
  | nil => exact ⟨B, rfl, hB, rfl⟩
  | cons s rest ih =>
    have hts : ∀ u ∈ N.out s ++ rest.flatMap N.out, N.Reachable u.1.dest := by
      rw [← List.flatMap_cons]
      intro u hu
      obtain ⟨s', hs', hu⟩ := List.mem_flatMap.mp hu
      exact (hids s' hs').dest hu
    obtain ⟨X, hX, hkept, hpushed⟩ := expandTransitions_total hshallow ds
      (X := ⟨finished, false, false, B⟩) hts hB
    obtain ⟨B', hB', hkept', hpushed'⟩ := ih X.finished
      (fun s' hs' => hids s' (List.mem_cons_of_mem _ hs')) hkept
    rw [expandStates, hX]
    exact ⟨B', hB', hkept', hpushed.trans hpushed'⟩

theorem constructLoop_total {rounds : ℕ} (h : Inv N B none) (hB : Kept N B)
    (hrounds : 2 ^ N.points.card + B.unfinishedStates.length < rounds + B.dfaStates.length) :
    (constructLoop N fuel rounds B).isSome := by
  induction rounds generalizing B with
  | zero =>
    have hcard := hB.card
    omega
  | succ rounds ih =>
    cases hunf : B.unfinishedStates with
    | nil =>
      rw [constructLoop, hunf]
      rfl
    | cons next rest =>
      obtain ⟨ds, hS, heq⟩ := constructLoop_succ rounds h hunf
      rw [heq]
      rw [hunf, List.length_cons] at hrounds
      split
      · next hds =>
        refine ih (h.pop hunf hS hds (fun d hd => hd) (fun d hd _ => hd)) ⟨hB.nodup, hB.members⟩ ?_
        show 2 ^ N.points.card + rest.length < rounds + B.dfaStates.length
        omega
      · next hds =>
        have hkept : Kept N { B with
            unfinishedStates := rest, finishedStates := ds :: B.finishedStates } :=
          ⟨hB.nodup, hB.members⟩
        obtain ⟨B₁, hB₁, hkept₁, hpushed⟩ := expandStates_total hshallow ds [] (hB.members _ ds hS) hkept
        obtain ⟨_, hexp⟩ := expandStates_spec (h.begin hunf hS hds) hB₁
        have hlen : B₁.unfinishedStates.length + B.dfaStates.length =
          rest.length + B₁.dfaStates.length := hpushed
        rw [hB₁]
        exact ih (.finish hexp) hkept₁ (by omega)

end Total

/-- Without a cycle there is a bound on the depth, and another one on the rounds. -/
theorem convert_isSome (h : ∀ s, N.Reachable s → ¬ TransGen N.NullStep s s) :
    (DFA.convert N (N.points.card + 1 + 2 ^ N.points.card + 1)).isSome := by
  generalize hfuel : N.points.card + 1 + 2 ^ N.points.card + 1 = fuel
  have hshallow : ∀ x, N.Reachable x → Shallow N.NullStep fuel x := by
    intro x hx
    have hacyclic : ∀ q, ReflTransGen N.NullStep x q → ¬ TransGen N.NullStep q q :=
      fun q hq => h q (hx.walk (Graph.walk_nil_iff_nullSteps.mpr hq))
    have hdepth : Shallow N.NullStep (N.points.card + 1) x :=
      shallow_of_acyclic (fun p q => Graph.nullStep_mem_points) hacyclic
    have hpos := Nat.two_pow_pos N.points.card
    exact hdepth.mono (by omega)
  obtain ⟨F, hF⟩ := Option.isSome_iff_exists.mp
    ((collect_isSome (F := ⟨∅, false, false⟩)).mpr (hshallow 0 Graph.reachable_zero))
  have hmem : ∀ x, x ∈ F.states.ids ↔ Walk N.edges 0 [] x := by
    intro x
    rw [mem_collect hF, or_iff_right NFAState.not_mem_empty]
  have hkept : Kept N (.first N F) := by
    refine ⟨List.nodup_singleton _, ?_⟩
    intro S d hS x hx
    obtain ⟨rfl, _⟩ := (find_stateForNFAStates rfl hS).resolve_right (fun h => by cases h)
    exact Graph.reachable_zero.walk ((hmem x).mp hx)
  rw [DFA.convert, Option.isSome_map, constructDFA, hF]
  refine constructLoop_total hshallow (Inv.init hmem) hkept ?_
  show 2 ^ N.points.card + 1 < fuel + 1
  omega

theorem exists_convert_iff :
    (∃ n, (DFA.convert N n).isSome) ↔ ∀ s, N.Reachable s → ¬ TransGen N.NullStep s s :=
  ⟨fun ⟨_, h⟩ _ => not_cycle_of_convert h, fun h => ⟨_, convert_isSome h⟩⟩

/-! ## Compilation -/

/-- What `Manifest::load` does with a description when deterministic automata are asked
for; `none` when the conversion does not come to an end within `rounds`. -/
def Manifest.load (xorOnly : Bool) (a : AutomatonDescription) (use : Option Usage)
    (descriptions : AutomataMap) (fuel rounds : ℕ) : Except Panic (Option Graph) := do
  let N ← NFA.link xorOnly a use descriptions fuel
  return DFA.convert N rounds

section Compilation

variable {xorOnly : Bool} {a : AutomatonDescription} {use : Option Usage}
  {descriptions : AutomataMap}

theorem load_eq_convert (h : NFA.link xorOnly a use descriptions fuel = .ok N) (rounds : ℕ) :
    Manifest.load xorOnly a use descriptions fuel rounds = .ok (DFA.convert N rounds) := by
  rw [Manifest.load, h]
  rfl

/-- The conversion of a linked automaton ends just when no state that the automaton can
be in lies on a cycle of null transitions. -/
theorem load_terminates_iff (h : NFA.link xorOnly a use descriptions fuel = .ok N) :
    (∃ rounds D, Manifest.load xorOnly a use descriptions fuel rounds = .ok (some D)) ↔
      ∀ s, N.Reachable s → ¬ TransGen N.NullStep s s := by
  rw [← exists_convert_iff]
  constructor
  · rintro ⟨rounds, D, hD⟩
    rw [load_eq_convert h] at hD
    exact ⟨rounds, Option.isSome_iff_exists.mpr ⟨D, Except.ok.inj hD⟩⟩
  · rintro ⟨rounds, hsome⟩
    obtain ⟨D, hD⟩ := Option.isSome_iff_exists.mp hsome
    exact ⟨rounds, D, by rw [load_eq_convert h, hD]⟩

end Compilation

theorem load_terminates_iff_sharedPrefix :
    NFA.link false sharedPrefix (some withinCall) (fun _ => none) 4 = .ok linkedSharedPrefix ∧
      ∀ s, linkedSharedPrefix.Reachable s → ¬ TransGen linkedSharedPrefix.NullStep s s := by
  have hlink : NFA.link false sharedPrefix (some withinCall) (fun _ => none) 4 =
    .ok linkedSharedPrefix := rfl
  have hsome : (DFA.convert linkedSharedPrefix 12).isSome = true := by decide +kernel
  obtain ⟨D, hD⟩ := Option.isSome_iff_exists.mp hsome
  exact ⟨hlink, (load_terminates_iff hlink).mp ⟨12, D, by rw [load_eq_convert hlink, hD]⟩⟩

/-- Any number of times, perhaps `x`: `ATLEAST (0, optional (x))`. -/
def optionalForever : AutomatonDescription :=
  { optionalLoop with
    expression := .sequence [.booleanExpr .xor .nullExpr (.function (Parser.callTo "x"))] 0
      infiniteRepetitions }

def linkedOptionalForever : Graph :=
  ((NFA.link false optionalForever (some withinCall) (fun _ => none) 3).toOption).getD .empty

/-- The loop around what may be left out is a cycle of null transitions. -/
theorem optionalForever_cycle : TransGen linkedOptionalForever.NullStep 1 1 := by
  have h₁ : linkedOptionalForever.NullStep 1 3 := by decide +kernel
  have h₂ : linkedOptionalForever.NullStep 3 6 := by decide +kernel
  have h₃ : linkedOptionalForever.NullStep 6 1 := by decide +kernel
  exact .head h₁ (.head h₂ (.single h₃))

theorem optionalForever_reachable : linkedOptionalForever.Reachable 1 := by
  have hedge : ⟨0, some (Parser.called "enter"), 1⟩ ∈ linkedOptionalForever.edges := by decide +kernel
  exact Graph.reachable_zero.walk (.letter hedge)

theorem optional_forever_does_not_terminate :
    NFA.link false optionalForever (some withinCall) (fun _ => none) 3 = .ok linkedOptionalForever ∧
      ∀ rounds, Manifest.load false optionalForever (some withinCall) (fun _ => none) 3 rounds =
        .ok none := by
  have hlink : NFA.link false optionalForever (some withinCall) (fun _ => none) 3 =
    .ok linkedOptionalForever := rfl
  refine ⟨hlink, ?_⟩
  intro rounds
  rw [load_eq_convert hlink]
  cases hD : DFA.convert linkedOptionalForever rounds with
  | none => rfl
  | some D =>
    have hsome : (DFA.convert linkedOptionalForever rounds).isSome = true := by rw [hD]; rfl
    exact absurd optionalForever_cycle (not_cycle_of_convert hsome optionalForever_reachable)

end Tesla.Automata
