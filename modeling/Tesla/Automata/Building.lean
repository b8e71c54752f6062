/-
# `Tesla.Automata.Building` — induction over `ConstructDFA`

`Inv` says how far the builder has come.  What the finished DFA is like beyond that
(its flags, its references) depends on the one moment at which a transition and
perhaps a state are made; `Making` says all that is known at this moment, and
`constructDFA_rule` is the induction over the three loops, done once.

    walked over           first of its letter   remaining
    before            ++  t                 ::  M              = what leaves the set `S`

`Frontier` flags are carried from one transition of an NFA state to the next
(`Carried`); the source resets them between NFA states only.
-/
import Tesla.Automata.Determinise
import Tesla.Lib.Shallow

namespace Tesla.Automata

open Lib Relation

variable {N : Graph} {fuel d ds x s : ℕ} {S S' : NFAState} {B B' : DFABuilder} {a : Letter}
  {F F' : Frontier} {t u : Transition × ℕ} {ts us later before M : List (Transition × ℕ)}
  {finished finished' : List (Transition × ℕ)} {flag : ℕ → Bool} {value : Bool}

/-! ## Null transitions -/

def Graph.NullStep (N : Graph) (p q : ℕ) : Prop := ⟨p, none, q⟩ ∈ N.edges

instance (p q : ℕ) : Decidable (N.NullStep p q) := inferInstanceAs (Decidable (_ ∈ N.edges))

theorem Graph.nullStep_iff {p q : ℕ} :
    N.NullStep p q ↔ ∃ t ∈ N.out p, t.1.label = .null ∧ t.1.dest = q := by
  rw [NullStep, Graph.mem_edges_iff]
  constructor
  · rintro ⟨t, ht, hedge⟩
    obtain ⟨_, hlab, hdst⟩ := Edge.mk.inj hedge
    exact ⟨t, ht, Label.letter_eq_none.mp hlab, hdst⟩
  · rintro ⟨t, ht, hnull, rfl⟩
    refine ⟨t, ht, ?_⟩
    rw [Transition.edge, (Graph.mem_out.mp ht).2, Label.letter_eq_none.mpr hnull]

theorem Graph.walk_nil_iff_nullSteps : Walk N.edges s [] x ↔ ReflTransGen N.NullStep s x := by
  constructor
  · intro h
    generalize hw : ([] : List Letter) = w at h
    induction h with
    | nil p => exact .refl
    | @cons e w q he _ ih =>
      obtain ⟨hlab, rfl⟩ := List.append_eq_nil_iff.mp hw.symm
      refine .head ?_ (ih rfl)
      rw [NullStep, ← Option.toList_eq_nil_iff.mp hlab]
      exact he
  · intro h
    induction h with
    | refl => exact .nil _
    | tail _ hstep ih => exact ih.append_eps hstep

/-- The recursion comes back just when no path of null transitions uses up its fuel. -/
theorem collectFrontier_isSome :
    (collectFrontier N fuel S s).isSome ↔ Shallow N.NullStep fuel s := by
  induction fuel generalizing S s with
  | zero => exact iff_of_false (fun h => by cases h) id
  | succ fuel ih =>
    have hfold : ∀ (ts : List (Transition × ℕ)) (S : NFAState),
        (ts.foldlM (fun S t => if t.1.label = .null then collectFrontier N fuel S t.1.dest else some S)
          S).isSome ↔ ∀ t ∈ ts, t.1.label = .null → Shallow N.NullStep fuel t.1.dest := by
      intro ts
      induction ts with
      | nil => exact fun S => iff_of_true rfl (fun t ht => absurd ht List.not_mem_nil)
      | cons t ts iht =>
        intro S
        rw [List.foldlM_cons, List.forall_mem_cons]
        split
        · next hnull =>
          cases h : collectFrontier N fuel S t.1.dest with
          | none =>
            refine iff_of_false (fun h => by cases h) ?_
            rintro ⟨hshallow, _⟩
            have hsome := (ih (S := S)).mpr (hshallow hnull)
            rw [h] at hsome
            cases hsome
          | some S₁ =>
            have hshallow := (ih (S := S)).mp (by rw [h]; rfl)
            rw [and_iff_right (fun _ => hshallow)]
            exact iht S₁
        · next hnull =>
          rw [and_iff_right (fun h => absurd h hnull)]
          exact iht S
    rw [collectFrontier, hfold]
    constructor
    · intro h q hq
      obtain ⟨t, ht, hnull, rfl⟩ := Graph.nullStep_iff.mp hq
      exact h t ht hnull
    · intro h t ht hnull
      exact h _ (Graph.nullStep_iff.mpr ⟨t, ht, hnull, rfl⟩)

theorem collect_isSome : (F.collect N fuel s).isSome ↔ Shallow N.NullStep fuel s := by
  rw [Frontier.collect, Option.isSome_map]
  exact collectFrontier_isSome

theorem collect_flags (h : F.collect N fuel s = some F') :
    F'.start = (F.start || N.isStart s) ∧ F'.final = (F.final || N.isAccepting s) := by
  obtain ⟨S, _, rfl⟩ := Option.map_eq_some_iff.mp h
  exact ⟨rfl, rfl⟩

/-! ## The flags of a frontier -/

/-- Does one of `us` that read `a` go to a state with the flag? -/
def Enters (flag : ℕ → Bool) (us : List (Transition × ℕ)) (a : Letter) : Prop :=
  ∃ u ∈ us, u.1.label.letter = some a ∧ flag u.1.dest = true

theorem enters_cons_of_ne (h : u.1.label.letter ≠ some a) :
    Enters flag (u :: us) a ↔ Enters flag us a := by
  constructor
  · rintro ⟨v, hv, ha, hflag⟩
    obtain rfl | hv := List.mem_cons.mp hv
    · exact absurd ha h
    · exact ⟨v, hv, ha, hflag⟩
  · rintro ⟨v, hv, ha, hflag⟩
    exact ⟨v, List.mem_cons_of_mem _ hv, ha, hflag⟩

theorem enters_cons (h : u.1.label.letter = some a) :
    Enters flag (u :: us) a ↔ flag u.1.dest = true ∨ Enters flag us a := by
  constructor
  · rintro ⟨v, hv, ha, hflag⟩
    obtain rfl | hv := List.mem_cons.mp hv
    · exact .inl hflag
    · exact .inr ⟨v, hv, ha, hflag⟩
  · rintro (hflag | ⟨v, hv, ha, hflag⟩)
    · exact ⟨u, List.mem_cons_self, h, hflag⟩
    · exact ⟨v, List.mem_cons_of_mem _ hv, ha, hflag⟩

theorem collectEquivalent_flags (ha : t.1.label.letter = some a)
    (h : collectEquivalent N fuel t.1 us F finished B = some (F', finished', B')) :
    (F'.start = true ↔ F.start = true ∨ Enters N.isStart us a) ∧
      (F'.final = true ↔ F.final = true ∨ Enters N.isAccepting us a) ∧
      ∀ u ∈ us, u.1.label.letter = some a → Shallow N.NullStep fuel u.1.dest := by
  induction us generalizing F finished B with
  | nil =>
    obtain ⟨rfl, rfl, rfl⟩ := by simpa [collectEquivalent] using h
    simp [Enters]
  | cons u us ih =>
    simp only [collectEquivalent] at h
    split at h
    · next heq =>
      rw [Label.equivalentTo_iff, ha] at heq
      obtain ⟨F₁, hF₁, h⟩ := Option.bind_eq_some_iff.mp h
      obtain ⟨hstart, hfinal, hshallow⟩ := ih h
      obtain ⟨hs, hf⟩ := collect_flags hF₁
      refine ⟨?_, ?_, ?_⟩
      · rw [hstart, hs, enters_cons heq, Bool.or_eq_true, or_assoc]
      · rw [hfinal, hf, enters_cons heq, Bool.or_eq_true, or_assoc]
      · rw [List.forall_mem_cons]
        exact ⟨fun _ => collect_isSome.mp (by rw [hF₁]; rfl), hshallow⟩
    · next heq =>
      rw [Label.equivalentTo_iff, ha] at heq
      obtain ⟨hstart, hfinal, hshallow⟩ := ih h
      rw [enters_cons_of_ne heq, enters_cons_of_ne heq, List.forall_mem_cons]
      exact ⟨hstart, hfinal, fun h => absurd h heq, hshallow⟩

/-- An earlier transition of the NFA state `s` set the flag: the first of its letter,
which leads, with others of that letter, to a state that has it. -/
def Carried (N : Graph) (S : NFAState) (before : List (Transition × ℕ)) (s : ℕ)
    (flag : ℕ → Bool) : Prop :=
  ∃ pre v post b, before = pre ++ v :: post ∧ v.1.source = s ∧ v.1.label.letter = some b ∧
    (∀ u ∈ pre, u.1.label.letter ≠ some b) ∧ Enters flag (S.ids.flatMap N.out) b

theorem Carried.append (h : Carried N S before s flag) (ts : List (Transition × ℕ)) :
    Carried N S (before ++ ts) s flag := by
  obtain ⟨pre, v, post, b, rfl, h⟩ := h
  exact ⟨pre, v, post ++ ts, b, by rw [List.append_assoc, List.cons_append], h⟩

/-! ## Making a transition -/

/-- The transition for `a` of the state `ds` for `S` is about to be made. -/
structure Making (N : Graph) (fuel : ℕ) (S : NFAState) (ds : ℕ) (before : List (Transition × ℕ))
    (t : Transition × ℕ) (M : List (Transition × ℕ)) (a : Letter) (F : Frontier)
    (B : DFABuilder) : Prop where
  expanding : ∃ finished, Expanding N S ds (t :: M) finished B
  split : S.ids.flatMap N.out = before ++ t :: M
  letter : t.1.label.letter = some a
  first : ∀ u ∈ before, u.1.label.letter ≠ some a
  fresh : some a ∉ B.letters ds
  states : ∀ x, x ∈ F.states.ids ↔ N.Leads (t :: M) (some a) x
  shallow : ∀ u ∈ t :: M, u.1.label.letter = some a → Shallow N.NullStep fuel u.1.dest
  start : F.start = true → Enters N.isStart (t :: M) a ∨ Carried N S before t.1.source N.isStart
  final : F.final = true →
    Enters N.isAccepting (t :: M) a ∨ Carried N S before t.1.source N.isAccepting
  accepting : Enters N.isAccepting (t :: M) a → F.final = true

theorem DFABuilder.find_make {t : Transition} (h : (B.make ds t F).find S = some d) :
    S = F.states ∨ B.find S = some d := by
  cases hF : B.find F.states with
  | some d' =>
    rw [make, stateForNFAStates_of_find hF] at h
    exact .inr h
  | none => exact (find_stateForNFAStates hF h).imp_left And.left

namespace Making

theorem states_ne_nil (h : Making N fuel S ds before t M a F B) : F.states.ids ≠ [] :=
  List.ne_nil_of_mem ((h.states t.1.dest).mpr ⟨t, List.mem_cons_self, h.letter, .nil _⟩)

theorem label_ne_null (h : Making N fuel S ds before t M a F B) : t.1.label ≠ .null := by
  intro hnull
  have ha := h.letter
  rw [hnull] at ha
  cases ha

theorem make_spec (h : Making N fuel S ds before t M a F B) :
    ∃ c : Transition, (B.make ds t.1 F).graph.transitions = B.graph.transitions ++ [c] ∧
      c.source = ds ∧ c.label = t.1.label ∧ (B.make ds t.1 F).find F.states = some c.dest := by
  have hfound : (B.make ds t.1 F).find F.states =
      some (B.stateForNFAStates F.states F.start F.final).1 := stateForNFAStates_found
  obtain ⟨c, htrans, _, hsource, hdest, hlabel⟩ := @Graph.copy_spec
    (B.stateForNFAStates F.states F.start F.final).1 ds t
    (B.stateForNFAStates F.states F.start F.final).2.graph h.label_ne_null
  rw [stateForNFAStates_transitions] at htrans
  exact ⟨c, htrans, hsource, hlabel, hdest ▸ hfound⟩

theorem letters_make (h : Making N fuel S ds before t M a F B) :
    (B.make ds t.1 F).letters ds = B.letters ds ++ [some a] := by
  obtain ⟨c, htrans, hsource, hlabel, _⟩ := h.make_spec
  rw [← h.letter, ← hlabel]
  exact DFABuilder.letters_append htrans hsource

/-- A flag that the new state gets will be carried on. -/
theorem carried (h : Making N fuel S ds before t M a F B)
    (hflag : Enters flag (t :: M) a ∨ Carried N S before t.1.source flag) :
    Carried N S (before ++ [t]) t.1.source flag := by
  obtain ⟨u, hu, ha, hflag⟩ | hflag := hflag
  · refine ⟨before, t, [], a, rfl, rfl, h.letter, h.first, u, ?_, ha, hflag⟩
    rw [h.split]
    exact List.mem_append_right _ hu
  · exact hflag.append [t]

end Making

/-! ## The rule -/

/-- Between two transitions of the NFA state `s`, in a set of which `before` has been
walked over. -/
structure Walking (N : Graph) (S : NFAState) (ds s : ℕ) (before M : List (Transition × ℕ))
    (X : Expansion) : Prop where
  expanding : Expanding N S ds M X.finished X.builder
  split : S.ids.flatMap N.out = before ++ M
  behind : ∀ u ∈ before, ∀ a, u.1.label.letter = some a → some a ∈ X.builder.letters ds
  start : X.start = true → Carried N S before s N.isStart
  final : X.final = true → Carried N S before s N.isAccepting

theorem Walking.skip {X : Expansion} (failed : List Check)
    (h : Walking N S ds s before (t :: M) X)
    (ht : ∀ a, t.1.label.letter = some a → some a ∈ X.builder.letters ds) :
    Walking N S ds s (before ++ [t]) M { X with builder := X.builder.noting failed } := by
  refine ⟨(h.expanding.skip ht).noting, ?_, ?_, fun hX => (h.start hX).append _,
    fun hX => (h.final hX).append _⟩
  · rw [h.split, List.append_assoc, List.singleton_append]
  · intro u hu
    rw [List.mem_append, List.mem_singleton] at hu
    obtain hu | rfl := hu
    · exact h.behind u hu
    · exact ht

section Rule

variable {J : DFABuilder → Prop}
  (hnote : ∀ {B failed}, J B → J (B.noting failed))
  (hmake : ∀ {S ds before t M a F B}, Making N fuel S ds before t M a F B → J B →
    J (B.make ds t.1 F))

include hnote hmake

theorem expandTransitions_rule {X X' : Expansion} (hts : ∀ t ∈ ts, t.1.source = s)
    (h : Walking N S ds s before (ts ++ later) X) (hJ : J X.builder)
    (hX : expandTransitions N fuel ds later ts X = some X') :
    Walking N S ds s (before ++ ts) later X' ∧ J X'.builder := by
  induction ts generalizing before X with
  | nil =>
    obtain rfl := Option.some.inj hX
    rw [List.append_nil]
    exact ⟨h, hJ⟩
  | cons t ts ih =>
    rw [← List.singleton_append, ← List.append_assoc]
    obtain ⟨hsource, hts⟩ := List.forall_mem_cons.mp hts
    cases expandTransitions_cons hX with
    | null hnull hX =>
      refine ih hts (h.skip X.builder.graph.failed ?_) hJ hX
      intro a ha
      rw [hnull] at ha
      cases ha
    | @passed a failed ha hdone hX =>
      refine ih hts (h.skip failed ?_) (hnote hJ) hX
      intro b hb
      rw [← hb, ha]
      exact (h.expanding.marked t List.mem_cons_self a ha).mp hdone
    | @made a failed failed' F F' finished' ha hnew hF hF' hX =>
      obtain ⟨hstart, hfinal, hshallow⟩ := collectEquivalent_flags ha hF'
      obtain ⟨hs, hf⟩ := collect_flags hF
      have hfresh : some a ∉ X.builder.letters ds := fun hmade =>
        hnew ((h.expanding.marked t List.mem_cons_self a ha).mpr hmade)
      have hmaking : Making N fuel S ds before t (ts ++ later) a F'
          ((X.builder.noting failed).noting failed') := by
        refine ⟨⟨X.finished, h.expanding.noting.noting⟩, h.split, ha, ?_, hfresh,
          fun _ => mem_frontier ha hF hF', ?_, ?_, ?_, ?_⟩
        · intro u hu hua
          exact hfresh (h.behind u hu a hua)
        · rw [List.forall_mem_cons]
          exact ⟨fun _ => collect_isSome.mp (by rw [hF]; rfl), hshallow⟩
        · rw [hstart, hs, Bool.or_eq_true, enters_cons ha, or_assoc, hsource]
          rintro (hX | hX)
          · exact .inr (h.start hX)
          · exact .inl hX
        · rw [hfinal, hf, Bool.or_eq_true, enters_cons ha, or_assoc, hsource]
          rintro (hX | hX)
          · exact .inr (h.final hX)
          · exact .inl hX
        · rw [hfinal, hf, Bool.or_eq_true, enters_cons ha, or_assoc]
          exact .inr
      refine ih hts ⟨?_, ?_, ?_, ?_, ?_⟩ (hmake hmaking (hnote (hnote hJ))) hX
      · refine (h.expanding.noting.noting.stateFor hmaking.states_ne_nil).copy ha ?_
          stateForNFAStates_found hmaking.states (collectEquivalent_spec ha hF').2.1
        rw [stateForNFAStates_letters]
        exact hfresh
      · rw [h.split, List.append_assoc, List.singleton_append, List.cons_append]
      · intro u hu b hb
        show some b ∈ DFABuilder.letters (DFABuilder.make _ ds t.1 F') ds
        rw [hmaking.letters_make, List.mem_append, List.mem_singleton]
        rw [List.mem_append, List.mem_singleton] at hu
        obtain hu | rfl := hu
        · exact .inl (h.behind u hu b hb)
        · exact .inr (hb.symm.trans ha)
      · exact fun hX => hsource ▸ hmaking.carried (hmaking.start hX)
      · exact fun hX => hsource ▸ hmaking.carried (hmaking.final hX)

theorem expandStates_rule {ids done : List ℕ}
    (hexp : Expanding N S ds (ids.flatMap N.out) finished B)
    (hids : S.ids = done ++ ids)
    (hbehind : ∀ u ∈ done.flatMap N.out, ∀ a, u.1.label.letter = some a → some a ∈ B.letters ds)
    (hJ : J B) (hB : expandStates N fuel ds ids finished B = some B') :
    (∃ finished', Expanding N S ds [] finished' B') ∧ J B' := by
  induction ids generalizing done finished B with
  | nil =>
    obtain rfl := Option.some.inj hB
    exact ⟨⟨finished, hexp⟩, hJ⟩
  | cons s rest ih =>
    obtain ⟨X, hX, hB⟩ := Option.bind_eq_some_iff.mp hB
    rw [List.flatMap_cons] at hexp
    have hsplit : S.ids.flatMap N.out = done.flatMap N.out ++ (N.out s ++ rest.flatMap N.out) := by
      rw [hids, List.flatMap_append, List.flatMap_cons]
    have hwalking : Walking N S ds s (done.flatMap N.out) (N.out s ++ rest.flatMap N.out)
        ⟨finished, false, false, B⟩ :=
      ⟨hexp, hsplit, hbehind, (fun h => by cases h), (fun h => by cases h)⟩
    obtain ⟨hX', hJX⟩ := expandTransitions_rule hnote hmake (fun t ht => (Graph.mem_out.mp ht).2)
      hwalking hJ hX
    have hdone : (done ++ [s]).flatMap N.out = done.flatMap N.out ++ N.out s := by
      rw [List.flatMap_append, List.flatMap_singleton]
    refine ih hX'.expanding ?_ (hdone ▸ hX'.behind) hJX hB
    rw [hids, List.append_assoc, List.singleton_append]

/-- The stacks do not matter to `J`. -/
theorem constructLoop_rule {rounds : ℕ}
    (hstack : ∀ {B unfinished finished}, J B →
      J { B with unfinishedStates := unfinished, finishedStates := finished })
    (h : Inv N B none) (hJ : J B) (hB : constructLoop N fuel rounds B = some B') : J B' := by
  induction rounds generalizing B with
  | zero => cases hB
  | succ rounds ih =>
    cases hunf : B.unfinishedStates with
    | nil =>
      rw [constructLoop, hunf] at hB
      obtain rfl := Option.some.inj hB
      exact hJ
    | cons next rest =>
      obtain ⟨ds, hS, heq⟩ := constructLoop_succ rounds h hunf
      rw [heq] at hB
      split at hB
      · next hds =>
        exact ih (h.pop hunf hS hds (fun d hd => hd) (fun d hd _ => hd)) (hstack hJ) hB
      · next hds =>
        obtain ⟨B₁, hB₁, hB⟩ := Option.bind_eq_some_iff.mp hB
        obtain ⟨⟨_, hexp⟩, hJ₁⟩ := expandStates_rule hnote hmake (h.begin hunf hS hds)
          (List.nil_append _).symm (fun u hu => absurd hu List.not_mem_nil) (hstack hJ) hB₁
        exact ih (.finish hexp) hJ₁ hB

end Rule

/-- The builder once it knows its first state. -/
def DFABuilder.first (N : Graph) (F : Frontier) : DFABuilder :=
  (DFABuilder.stateForNFAStates ⟨[], [], [], .empty, ((N.states[0]?).map (·.references.length)).getD 0⟩
    F.states F.start F.final).2

/-- What holds when the first state is known, and survives the making of a transition,
holds of the finished builder. -/
theorem constructDFA_rule {J : DFABuilder → Prop}
    (hfirst : ∀ {F}, Frontier.collect N fuel ⟨∅, false, false⟩ 0 = some F → J (.first N F))
    (hstack : ∀ {B unfinished finished}, J B →
      J { B with unfinishedStates := unfinished, finishedStates := finished })
    (hnote : ∀ {B failed}, J B → J (B.noting failed))
    (hmake : ∀ {S ds before t M a F B}, Making N fuel S ds before t M a F B → J B →
      J (B.make ds t.1 F))
    (h : constructDFA N fuel = some B) : J B := by
  obtain ⟨F, hF, hB⟩ := Option.bind_eq_some_iff.mp h
  refine constructLoop_rule hnote hmake hstack (Inv.init ?_) (hfirst hF) hB
  intro x
  rw [mem_collect hF, or_iff_right NFAState.not_mem_empty]

/-! ## Flags of states -/

/-- Old states keep their flags; a new one has those of the frontier. -/
theorem Making.flags_make (h : Making N fuel S ds before t M a F B) :
    (B.make ds t.1 F).graph.flags = B.graph.flags ++
      if B.find F.states = none then [(F.start, F.final, F.states.ids)] else [] := by
  rw [DFABuilder.make, Graph.copy_flags h.label_ne_null]
  cases hfind : B.find F.states with
  | some d =>
    rw [stateForNFAStates_of_find hfind]
    simp
  | none =>
    rw [stateForNFAStates_flags hfind]
    simp

/-- A set, and a word that leads to it. -/
def NFAState.ReachedBy (S : NFAState) (N : Graph) (w : List Letter) : Prop :=
  ∀ x, x ∈ S.ids ↔ x ∈ N.reached w

/-- One more letter. -/
theorem Making.reachedBy {w : List Letter} (h : Making N fuel S ds before t M a F B)
    (hw : S.ReachedBy N w) : F.states.ReachedBy N (w ++ [a]) := by
  obtain ⟨finished, hexp⟩ := h.expanding
  intro x
  rw [h.states, ← hexp.leads_iff h.fresh, Graph.mem_reached_concat]
  constructor
  · rintro ⟨u, hu, hx⟩
    obtain ⟨s, hs, hu⟩ := List.mem_flatMap.mp hu
    exact ⟨s, (hw s).mp hs, u, hu, hx⟩
  · rintro ⟨s, hs, u, hu, hx⟩
    exact ⟨u, List.mem_flatMap.mpr ⟨s, (hw s).mpr hs, hu⟩, hx⟩

/-- Every state stands for a set that some word leads to; `P` is what is known of its
flags when it is made. -/
theorem flags_rule {P : Bool → Bool → NFAState → Prop}
    (hfirst : ∀ {F}, Frontier.collect N fuel ⟨∅, false, false⟩ 0 = some F →
      P F.start F.final F.states)
    (hmake : ∀ {S ds before t M a F B w}, Making N fuel S ds before t M a F B →
      S.ReachedBy N w → P F.start F.final F.states)
    (h : constructDFA N fuel = some B) (hS : B.find S = some d) :
    ∃ start final w, B.graph.flags[d]? = some (start, final, S.ids) ∧ S.ReachedBy N w ∧
      P start final S := by
  let J : DFABuilder → Prop := fun B => ∀ S d, B.find S = some d →
    ∃ start final w, B.graph.flags[d]? = some (start, final, S.ids) ∧ S.ReachedBy N w ∧
      P start final S
  refine constructDFA_rule (J := J) ?_ id id ?_ h S d hS
  · intro F hF S d hS
    obtain ⟨rfl, rfl⟩ := (find_stateForNFAStates rfl hS).resolve_right (fun h => by cases h)
    refine ⟨F.start, F.final, [], rfl, ?_, hfirst hF⟩
    intro x
    rw [mem_collect hF, or_iff_right NFAState.not_mem_empty, Graph.mem_reached]
  · intro S ds before t M a F B hmaking hJ S' d hS'
    rw [hmaking.flags_make]
    cases hfind : B.find F.states with
    | some d' =>
      rw [DFABuilder.make, stateForNFAStates_of_find hfind] at hS'
      simpa using hJ S' d hS'
    | none =>
      rw [if_pos rfl]
      obtain ⟨rfl, rfl⟩ | hold := find_stateForNFAStates hfind hS'
      · obtain ⟨finished, hexp⟩ := hmaking.expanding
        obtain ⟨_, _, w, _, hw, _⟩ := hJ S ds hexp.found
        refine ⟨F.start, F.final, w ++ [a], ?_, hmaking.reachedBy hw, hmake hmaking hw⟩
        rw [← Graph.flags_length, List.getElem?_concat_length]
      · obtain ⟨start, final, w, hget, hP⟩ := hJ S' d hold
        refine ⟨start, final, w, ?_, hP⟩
        rw [List.getElem?_append_left (List.getElem?_eq_some_iff.mp hget).1]
        exact hget

theorem find_reached (h : constructDFA N fuel = some B) (hS : B.find S = some d) :
    ∃ w, S.ReachedBy N w := by
  obtain ⟨_, _, w, _, hw, _⟩ := flags_rule (P := fun _ _ _ => True) (fun _ => trivial)
    (fun _ _ => trivial) h hS
  exact ⟨w, hw⟩

/-- The first state is a starting state if that of the NFA is. -/
theorem isStart_zero (h : constructDFA N fuel = some B) (hN : N.isStart 0 = true) :
    B.graph.isStart 0 = true := by
  let J : DFABuilder → Prop := fun B => ∃ f, B.graph.flags[0]? = some f ∧ f.1 = true
  have hJ : J B := by
    refine constructDFA_rule (J := J) ?_ id id ?_ h
    · intro F hF
      refine ⟨(F.start, F.final, F.states.ids), rfl, ?_⟩
      rw [(collect_flags hF).1, hN, Bool.or_true]
    · rintro S ds before t M a F B hmaking ⟨f, hget, hf⟩
      refine ⟨f, ?_, hf⟩
      rw [hmaking.flags_make, List.getElem?_append_left (List.getElem?_eq_some_iff.mp hget).1]
      exact hget
  obtain ⟨f, hget, hf⟩ := hJ
  rw [Graph.isStart_eq, hget]
  exact hf

/-- A set with an accepting state has an accepting state, if no null transition leads to
accepting states. -/
theorem isAccepting_of_mem (hnull : ∀ p q, N.NullStep p q → N.isAccepting q = false)
    (hzero : N.isAccepting 0 = false) (h : constructDFA N fuel = some B) (hS : B.find S = some d)
    (hx : x ∈ S.ids) (haccept : N.isAccepting x = true) : B.graph.isAccepting d = true := by
  -- an accepting state is not reached from another one without an event
  have hsame : ∀ p, Walk N.edges p [] x → p = x := by
    intro p hp
    obtain rfl | ⟨q, _, hstep⟩ := ReflTransGen.cases_tail (Graph.walk_nil_iff_nullSteps.mp hp)
    · rfl
    · rw [hnull q x hstep] at haccept
      cases haccept
  have hflags : ∃ start final w, B.graph.flags[d]? = some (start, final, S.ids) ∧
      S.ReachedBy N w ∧ (x ∈ S.ids → final = true) := by
    refine flags_rule (P := fun _ final S => x ∈ S.ids → final = true) ?_ ?_ h hS
    · intro F hF hx
      rw [mem_collect hF, or_iff_right NFAState.not_mem_empty] at hx
      obtain rfl := hsame 0 hx
      rw [hzero] at haccept
      cases haccept
    · intro S ds before t M a F B w hmaking _ hx
      obtain ⟨u, hu, ha, hwalk⟩ := (hmaking.states x).mp hx
      refine hmaking.accepting ⟨u, hu, ha, ?_⟩
      rw [hsame _ hwalk]
      exact haccept
  obtain ⟨start, final, _, hget, _, hfinal⟩ := hflags
  rw [Graph.isAccepting_eq, hget]
  exact hfinal hx

/-! ## What states stand for -/

/-- Every state has been made for a set. -/
theorem find_of_lt (h : constructDFA N fuel = some B) (hd : d < B.graph.states.length) :
    ∃ S, B.find S = some d := by
  let J : DFABuilder → Prop := fun B => ∀ d < B.graph.flags.length, ∃ S, B.find S = some d
  rw [← Graph.flags_length] at hd
  refine constructDFA_rule (J := J) ?_ id id ?_ h d hd
  · intro F hF d hd
    obtain rfl : d = 0 := Nat.lt_one_iff.mp hd
    exact ⟨F.states, List.lookup_cons_self⟩
  · intro S ds before t M a F B hmaking hJ d hd
    rw [hmaking.flags_make, List.length_append] at hd
    by_cases hold : d < B.graph.flags.length
    · obtain ⟨S', hS'⟩ := hJ d hold
      exact ⟨S', stateForNFAStates_find hS'⟩
    · cases hfind : B.find F.states with
      | some d' =>
        rw [hfind, if_neg (by simp)] at hd
        exact absurd hd hold
      | none =>
        rw [hfind, if_pos rfl, List.length_singleton] at hd
        refine ⟨F.states, ?_⟩
        have hnew : (B.make ds t.1 F).find F.states = some B.graph.states.length := by
          rw [DFABuilder.make, DFABuilder.stateForNFAStates, hfind]
          exact List.lookup_cons_self
        rw [hnew, ← Graph.flags_length]
        congr 1
        omega

/-! ## Where transitions come from -/

/-- A transition that `Transition::Copy` reproduces: an assertion site has no scope, and
a sub-automaton no flags at all. -/
def Transition.Regular (t : Transition) : Prop :=
  match t.label with
  | .null | .fn _ | .fieldAssign _ => True
  | .assertSite .. => t.outOfScope = false
  | .subAutomaton _ => t.init = false ∧ t.cleanup = false ∧ t.outOfScope = false

theorem Graph.copy_regular {t : Transition} (ht : t.Regular) (hnull : t.label ≠ .null) (g : Graph)
    (p q : ℕ) : (g.copy p q t false).transitions =
      g.transitions ++ [{ t with source := p, dest := q }] := by
  obtain ⟨source, dest, label, init, cleanup, outOfScope⟩ := t
  cases label with
  | null => exact absurd rfl hnull
  | fn | fieldAssign => simp [copy]
  | assertSite =>
    obtain rfl : outOfScope = false := ht
    simp [copy]
  | subAutomaton =>
    obtain ⟨rfl, rfl, rfl⟩ : init = false ∧ cleanup = false ∧ outOfScope = false := ht
    simp [copy]

/-- `t` is the first of its letter. -/
def FirstOf (us : List (Transition × ℕ)) (t : Transition × ℕ) : Prop :=
  ∃ before M, us = before ++ t :: M ∧ ∀ u ∈ before, u.1.label.letter ≠ t.1.label.letter

theorem FirstOf.mem {us : List (Transition × ℕ)} (h : FirstOf us t) : t ∈ us := by
  obtain ⟨before, M, rfl, _⟩ := h
  exact List.mem_append_right _ List.mem_cons_self

/-- There is one first of each letter. -/
theorem FirstOf.unique {us : List (Transition × ℕ)} (ht : FirstOf us t) (hu : FirstOf us u)
    (hletter : t.1.label.letter = u.1.label.letter) : t = u := by
  have hfind : ∀ {v}, FirstOf us v →
      us.find? (fun w => w.1.label.letter = v.1.label.letter) = some v := by
    rintro v ⟨before, M, rfl, hbefore⟩
    have hnone : before.find? (fun w => w.1.label.letter = v.1.label.letter) = none := by
      simpa using hbefore
    rw [List.find?_append, hnone, Option.none_or, List.find?_cons_of_pos (by simp)]
  have hu' := hfind hu
  rw [← hletter, hfind ht] at hu'
  exact Option.some.inj hu'

/-- A transition of the DFA is a copy of the first of its letter that leaves the set. -/
theorem origin (hN : ∀ t ∈ N.transitions, t.Regular) (h : constructDFA N fuel = some B)
    {c : Transition} (hc : c ∈ B.graph.transitions) :
    ∃ S t, B.find S = some c.source ∧ FirstOf (S.ids.flatMap N.out) t ∧
      c = { t.1 with source := c.source, dest := c.dest } := by
  let J : DFABuilder → Prop := fun B => ∀ c ∈ B.graph.transitions,
    ∃ S t, B.find S = some c.source ∧ FirstOf (S.ids.flatMap N.out) t ∧
      c = { t.1 with source := c.source, dest := c.dest }
  refine constructDFA_rule (J := J) ?_ id id ?_ h c hc
  · intro F hF c hc
    exact absurd hc List.not_mem_nil
  · intro S ds before t M a F B hmaking hJ c hc
    obtain ⟨finished, hexp⟩ := hmaking.expanding
    obtain ⟨s, _, hts⟩ := List.mem_flatMap.mp (hexp.within t List.mem_cons_self)
    have hregular : t.1.Regular := hN t.1 (List.fst_mem_of_mem_zipIdx (Graph.mem_out.mp hts).1)
    rw [DFABuilder.make, Graph.copy_regular hregular hmaking.label_ne_null,
      stateForNFAStates_transitions, List.mem_append, List.mem_singleton] at hc
    obtain hc | rfl := hc
    · obtain ⟨S', t', hS', ht'⟩ := hJ c hc
      exact ⟨S', t', stateForNFAStates_find hS', ht'⟩
    · refine ⟨S, t, stateForNFAStates_find hexp.found, ⟨before, M, hmaking.split, ?_⟩, rfl⟩
      rw [hmaking.letter]
      exact hmaking.first

end Tesla.Automata
