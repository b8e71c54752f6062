/-
# `Tesla.Instrumenter.Table` — the table of a converted automaton

`BuildAutomatonDescription` writes one row for each equivalence class of transitions, and the
symbol of a letter is the row of its class.  On a graph whose states leave by one transition at
most for a letter, walking the rows is walking the graph:

    `Automaton.next` at a symbol      the transition of the graph that reads the letter
    `Automaton.path` from a state     the walk that reads the word

The graph that the subset construction makes of an automaton with bounds is such a graph, and if
its lifetime has survived the conversion (`BeginsOnly`, `EndsFirst`), its first row is the
beginning, which has one transition, and its cleanup symbol is the row of the end.  Without
variables it is an automaton of the kind that `Tesla.Runtime.Plain` is about.
-/
import Tesla.Automata.Converted
import Tesla.Instrumenter.Chain
import Tesla.Runtime.Monitor

namespace Tesla.Instrumenter

open Automata Lib Tesla.Runtime

variable {it : Iteration} {g D N : Graph} {t u c : Automata.Transition} {b x y : Letter}
  {ts : List Automata.Transition} {cs : List (List Automata.Transition)} {q k : Nat}
  {w : List Letter} {a : Automata.Automaton} {l : Runtime.Lifetime}

/-! ## Rows -/

theorem insertClass_perm (it : Iteration) (t : Automata.Transition)
    (cs : List (List Automata.Transition)) : (insertClass it t cs).flatten.Perm (t :: cs.flatten) := by
  induction cs with
  | nil => exact .refl _
  | cons c cs ih =>
    rw [insertClass]
    split
    · rw [List.flatten_cons, List.flatten_cons, List.append_assoc]
      exact List.perm_middle
    · rw [List.flatten_cons, List.flatten_cons]
      exact (ih.append_left c).trans List.perm_middle

/-- The classes hold every transition once. -/
theorem groupClasses_perm (it : Iteration) (ts : List Automata.Transition) :
    (groupClasses it ts).flatten.Perm ts := by
  induction ts using List.reverseRecOn with
  | nil => exact .refl _
  | append_singleton ts t ih =>
    rw [groupClasses, List.foldl_append]
    refine (insertClass_perm it t _).trans ?_
    exact (ih.cons t).trans (List.perm_append_singleton t ts).symm

theorem findIdx_congr {α : Type} {p p' : α → Bool} {xs : List α} (h : ∀ a ∈ xs, p a = p' a) :
    xs.findIdx p = xs.findIdx p' := by
  induction xs with
  | nil => rfl
  | cons a xs ih =>
    obtain ⟨ha, hxs⟩ := List.forall_mem_cons.mp h
    rw [List.findIdx_cons, List.findIdx_cons, ha, ih hxs]

/-- The symbol of a letter: the row of its class. -/
def symbolOf (it : Iteration) (g : Graph) (b : Letter) : Nat :=
  (groupClasses it g.transitions).findIdx fun c => (it.head c).any fun t => t.label.letter = some b

theorem class_of_letter (it : Iteration) (ht : t ∈ g.transitions) (hb : t.label.letter = some b) :
    ∃ c, (groupClasses it g.transitions)[symbolOf it g b]? = some c ∧
      ∀ u, u ∈ c ↔ u ∈ g.transitions ∧ u.label.letter = some b := by
  have hgrouped := grouped it g.transitions
  obtain ⟨c, hc, htc⟩ := hgrouped.cover t ht
  have hread : ∀ {c head}, c ∈ groupClasses it g.transitions → it.head c = some head →
      ∀ u, u ∈ c ↔ u ∈ g.transitions ∧ u.label.letter = head.label.letter := by
    intro c head hc hhead u
    exact hgrouped.mem_iff hc (Iteration.mem_of_head hhead)
  obtain ⟨head, hmem, hhead⟩ := it.head_isSome (hgrouped.nonempty c hc)
  have hletter : head.label.letter = some b := by
    rw [← hb]
    exact ((hread hc hhead t).mp htc).2.symm
  have hlt : symbolOf it g b < (groupClasses it g.transitions).length :=
    List.findIdx_lt_length.mpr ⟨c, hc, by simp [hhead, hletter]⟩
  refine ⟨_, List.getElem?_eq_getElem hlt, fun u => ?_⟩
  have hpred := List.findIdx_getElem (w := hlt)
  obtain ⟨head', hhead', hletter'⟩ := (Option.any_eq_true ..).mp hpred
  rw [hread (List.getElem_mem hlt) hhead' u, of_decide_eq_true hletter']

/-- The row of a letter. -/
theorem row_of_letter (it : Iteration) (l : Runtime.Lifetime) (ht : t ∈ a.graph.transitions)
    (hb : t.label.letter = some b) :
    ∃ c : List Automata.Transition,
      (∀ u, u ∈ c ↔ u ∈ a.graph.transitions ∧ u.label.letter = some b) ∧
      (buildAutomatonDescription it a l).taTransitions[symbolOf it a.graph b]? =
        some (c.map (buildTransition a.graph)) := by
  obtain ⟨c, hc, hmem⟩ := class_of_letter it ht hb
  refine ⟨it.walk c, fun u => ?_, ?_⟩
  · rw [(it.perm c).mem_iff, hmem]
  · rw [buildAutomatonDescription, List.getElem?_map, hc]
    rfl

/-- Whatever is in the table has been written for a transition of the graph. -/
theorem has_iff {v : Runtime.Transition} : (buildAutomatonDescription it a l).Has v ↔
    ∃ t ∈ a.graph.transitions, buildTransition a.graph t = v := by
  constructor
  · rintro ⟨row, hrow, hv⟩
    obtain ⟨c, hc, rfl⟩ := List.mem_map.mp hrow
    obtain ⟨t, ht, rfl⟩ := List.mem_map.mp hv
    refine ⟨t, ?_, rfl⟩
    rw [← (groupClasses_perm it a.graph.transitions).mem_iff]
    exact List.mem_flatten.mpr ⟨c, hc, (it.perm c).mem_iff.mp ht⟩
  · rintro ⟨t, ht, rfl⟩
    rw [← (groupClasses_perm it a.graph.transitions).mem_iff] at ht
    obtain ⟨c, hc, ht⟩ := List.mem_flatten.mp ht
    exact ⟨_, List.mem_map_of_mem hc, List.mem_map_of_mem ((it.perm c).mem_iff.mpr ht)⟩

/-- In a row, no two transitions leave one state. -/
theorem row_nodup (hdet : Deterministic a.graph) :
    ∀ row ∈ (buildAutomatonDescription it a l).taTransitions,
      (row.map Runtime.Transition.fromState).Nodup := by
  intro row hrow
  obtain ⟨c, hc, rfl⟩ := List.mem_map.mp hrow
  have hflat : ((groupClasses it a.graph.transitions).flatten.map
      fun t => (t.source, t.label.letter)).Nodup :=
    ((groupClasses_perm it a.graph.transitions).map _).nodup_iff.mpr hdet
  have hclass : (c.map fun t => (t.source, t.label.letter)).Nodup :=
    hflat.sublist ((List.sublist_flatten_of_mem hc).map _)
  have hpairs : c.Pairwise fun t u => t.source ≠ u.source := by
    obtain ⟨o, ho⟩ := (grouped it a.graph.transitions).classes c hc
    refine (List.pairwise_map.mp hclass).imp_of_mem fun {t u} ht hu hne heq => hne ?_
    rw [heq, ((ho t).mp ht).2, ((ho u).mp hu).2]
  rw [List.map_map]
  exact (((it.perm c).map _).nodup_iff).mpr (List.pairwise_map.mpr hpairs)

/-! ## Walking the rows -/

/-- Some transition of the graph reads the letter. -/
def Occurs (g : Graph) (b : Letter) : Prop := ∃ t ∈ g.transitions, t.label.letter = some b

instance (g : Graph) (b : Letter) : Decidable (Occurs g b) :=
  inferInstanceAs (Decidable (∃ t ∈ g.transitions, t.label.letter = some b))

/-- At the symbol of a letter, the table goes where the graph goes. -/
theorem next_symbolOf (hdet : Deterministic a.graph) (hb : Occurs a.graph b)
    {v : Runtime.Transition} :
    (buildAutomatonDescription it a l).next q (symbolOf it a.graph b) = some v ↔
      ∃ t ∈ a.graph.transitions, t.source = q ∧ t.label.letter = some b ∧
        buildTransition a.graph t = v := by
  obtain ⟨t₀, ht₀, hb₀⟩ := hb
  obtain ⟨c, hmem, hrow⟩ := row_of_letter it l ht₀ hb₀
  rw [Automaton.next_eq hrow]
  constructor
  · intro hv
    obtain ⟨t, ht, rfl⟩ := List.mem_map.mp (List.mem_of_find?_eq_some hv)
    obtain ⟨ht, hletter⟩ := (hmem t).mp ht
    have hsource : (buildTransition a.graph t).fromState = q := by simpa using List.find?_some hv
    exact ⟨t, ht, hsource, hletter, rfl⟩
  · rintro ⟨t, ht, hsource, hletter, rfl⟩
    have htc : buildTransition a.graph t ∈ c.map (buildTransition a.graph) :=
      List.mem_map_of_mem ((hmem t).mpr ⟨ht, hletter⟩)
    have hsome : ((c.map (buildTransition a.graph)).find? fun v => v.fromState = q).isSome :=
      List.find?_isSome.mpr ⟨_, htc, decide_eq_true hsource⟩
    obtain ⟨v, hv⟩ := Option.isSome_iff_exists.mp hsome
    rw [hv]
    have hq : v.fromState = q := by simpa using List.find?_some hv
    have hsame : v.fromState = (buildTransition a.graph t).fromState := hq.trans hsource.symm
    exact congrArg some (List.inj_on_of_nodup_map (row_nodup hdet _ (List.mem_of_getElem? hrow))
      (List.mem_of_find?_eq_some hv) htc hsame)

/-- Symbols lead through the table where their letters lead through the graph. -/
theorem path_symbols (hdet : Deterministic a.graph)
    (hnull : ∀ t ∈ a.graph.transitions, t.label.letter ≠ none) (hw : ∀ b ∈ w, Occurs a.graph b)
    {q' : Nat} :
    (buildAutomatonDescription it a l).path q (w.map (symbolOf it a.graph)) = some q' ↔
      Walk a.graph.edges q w q' := by
  induction w generalizing q with
  | nil =>
    constructor
    · intro h
      cases h
      exact .nil _
    · intro h
      generalize hnil : ([] : List Letter) = w at h
      cases h with
      | nil => rfl
      | cons he _ =>
        obtain ⟨t, ht, rfl⟩ := List.mem_map.mp he
        obtain ⟨b, hb⟩ := Option.ne_none_iff_exists'.mp (hnull t ht)
        simp [Automata.Transition.edge, hb] at hnil
  | cons b w ih =>
    obtain ⟨hb, hw⟩ := List.forall_mem_cons.mp hw
    rw [List.map_cons, Automaton.path_cons, Option.bind_eq_some_iff]
    constructor
    · rintro ⟨v, hv, hpath⟩
      obtain ⟨t, ht, rfl, hletter, rfl⟩ := (next_symbolOf hdet hb).mp hv
      have hwalk := Walk.cons (List.mem_map_of_mem ht) ((ih hw).mp hpath)
      rwa [show t.edge.lab.toList = [b] by rw [Automata.Transition.edge, hletter]; rfl] at hwalk
    · intro h
      generalize hbw : b :: w = w' at h
      cases h with
      | nil => cases hbw
      | @cons e w'' _ he h =>
        obtain ⟨t, ht, rfl⟩ := List.mem_map.mp he
        obtain ⟨b', hb'⟩ := Option.ne_none_iff_exists'.mp (hnull t ht)
        rw [show t.edge.lab.toList = [b'] by rw [Automata.Transition.edge, hb']; rfl] at hbw
        obtain ⟨rfl, rfl⟩ := List.cons.inj hbw
        exact ⟨buildTransition a.graph t, (next_symbolOf hdet hb).mpr ⟨t, ht, rfl, hb', rfl⟩,
          (ih hw).mpr h⟩

/-! ## A table with a lifetime -/

@[simp] theorem buildTransition_init : (buildTransition g t).init = t.init := by
  cases hi : t.init <;> cases hc : t.cleanup <;>
    simp [buildTransition, Runtime.Transition.init, hi, hc]

@[simp] theorem buildTransition_cleanup : (buildTransition g t).cleanup = t.cleanup := by
  cases hi : t.init <;> cases hc : t.cleanup <;>
    simp [buildTransition, Runtime.Transition.cleanup, hi, hc]

theorem stateMask_of_blank (h : Blank g) (s : Nat) : stateMask g s = 0 := by
  have hmask : ((g.states[s]?).map State.mask).getD [] = [] := h s
  rw [stateMask, hmask]
  rfl

/-- The first transition has the first class. -/
theorem groupClasses_cons (it : Iteration) (t : Automata.Transition)
    (ts : List Automata.Transition) : ∃ c cs, groupClasses it (t :: ts) = c :: cs ∧ t ∈ c := by
  induction ts using List.reverseRecOn with
  | nil => exact ⟨[t], [], rfl, List.mem_singleton_self t⟩
  | append_singleton ts u ih =>
    obtain ⟨c, cs, heq, ht⟩ := ih
    rw [groupClasses] at heq
    rw [← List.cons_append, groupClasses, List.foldl_append, heq]
    show ∃ c' cs', insertClass it u (c :: cs) = c' :: cs' ∧ t ∈ c'
    rw [insertClass]
    split
    · exact ⟨_, _, rfl, List.mem_append_left _ ht⟩
    · exact ⟨_, _, rfl, ht⟩

/-- Beyond the rows that begin, late initialisation finds nothing. -/
theorem foundFrom_plain {autom : Runtime.Automaton} {n : Nat}
    (h : ∀ (j : Nat) row, n ≤ j → autom.taTransitions[j]? = some row → ∀ t ∈ row, t.init = false) :
    ∀ {fuel i : Nat}, n ≤ i → foundFrom autom fuel i = [] := by
  intro fuel
  induction fuel with
  | zero => exact fun _ => rfl
  | succ fuel ih =>
    intro i hi
    rw [foundFrom]
    split
    · rfl
    · exact ih (by omega)
    · next t ts hrow =>
      have hplain := h i _ hi hrow t List.mem_cons_self
      split
      · exact ih (by omega)
      · rw [hplain, if_neg Bool.false_ne_true]
        exact ih (by omega)

theorem label_of_letter {label : Label} {ev : FunctionEvent} (h : label.letter = some (.fn ev)) :
    label = .fn ev := by
  cases label <;> cases h
  rfl

section Lifetime

variable (hlife : HasLifetime a.graph x y) (hdet : Deterministic a.graph)
include hlife

/-- The cleanup symbol is that of the end. -/
theorem taCleanupSymbol_eq (it : Iteration) (l : Runtime.Lifetime) :
    (buildAutomatonDescription it a l).taCleanupSymbol = symbolOf it a.graph y := by
  have hgrouped := grouped it a.graph.transitions
  have hsame : ∀ c ∈ groupClasses it a.graph.transitions,
      (it.head c).any (·.cleanup) = (it.head c).any fun t => t.label.letter = some y := by
    intro c hc
    obtain ⟨t, ht, hhead⟩ := it.head_isSome (hgrouped.nonempty c hc)
    obtain ⟨o, ho⟩ := hgrouped.classes c hc
    have hends := hlife.ends t ((ho t).mp ht).1
    rw [hhead, Option.any_some, Option.any_some, Bool.eq_iff_iff, ← hends, decide_eq_true_iff]
  have hidx : symbolOf it a.graph y =
      (groupClasses it a.graph.transitions).findIdx fun c => (it.head c).any (·.cleanup) :=
    (findIdx_congr hsame).symm
  obtain ⟨t, ht, hty⟩ := hlife.closes
  obtain ⟨c, hc, _⟩ := class_of_letter it ht hty
  have hlt := (List.getElem?_eq_some_iff.mp hc).1
  rw [hidx] at hlt ⊢
  rw [buildAutomatonDescription, List.findIdx?_eq_guard_findIdx_lt, Option.guard_pos (by simpa using hlt)]
  rfl

/-- The bounds of the automaton's lifetime are the events of its own. -/
theorem getLifetime_init {ev : FunctionEvent} (it : Iteration) (hx : x = .fn ev) :
    (a.getLifetime it).init = some (.fn ev) := by
  obtain ⟨c, cs, hcons, hcx⟩ := hlife.first
  have hmem : c ∈ a.graph.transitions := hcons ▸ List.mem_cons_self
  obtain ⟨cl, cls, hclasses, hccl⟩ := groupClasses_cons it c cs
  rw [← hcons] at hclasses
  have hgrouped := grouped it a.graph.transitions
  rw [hclasses] at hgrouped
  obtain ⟨head, hhcl, hhead⟩ := it.head_isSome (List.ne_nil_of_mem hccl)
  obtain ⟨hhmem, hletter⟩ := (hgrouped.mem_iff List.mem_cons_self hccl).mp hhcl
  have hhx : head.label.letter = some x := hletter.trans hcx
  have hinit : head.init = true := (hlife.begins head hhmem).mp hhx
  have hfound : Automata.Automaton.init it a.graph = some head := by
    rw [Automata.Automaton.init, hclasses, List.findSome?_cons, hhead, Option.filter_some_pos hinit]
  subst hx
  rw [Automata.Automaton.getLifetime, hfound, Option.map_some, label_of_letter hhx]

theorem getLifetime_cleanup {ev : FunctionEvent} (it : Iteration) (hy : y = .fn ev) :
    (a.getLifetime it).cleanup = some (.fn ev) := by
  have hgrouped := grouped it a.graph.transitions
  obtain ⟨t, ht, hty⟩ := hlife.closes
  obtain ⟨c, hc, htc⟩ := hgrouped.cover t ht
  have hletter : ∀ {c head}, c ∈ groupClasses it a.graph.transitions → it.head c = some head →
      (head.label.letter = some y ↔ head.cleanup = true) := by
    intro c head hc hhead
    obtain ⟨o, ho⟩ := hgrouped.classes c hc
    exact hlife.ends head ((ho head).mp (Iteration.mem_of_head hhead)).1
  have hsome : ((groupClasses it a.graph.transitions).find? fun c =>
      (it.head c).any (·.cleanup)).isSome = true := by
    rw [List.find?_isSome]
    obtain ⟨head, hhc, hhead⟩ := it.head_isSome (hgrouped.nonempty c hc)
    refine ⟨c, hc, ?_⟩
    rw [hhead, Option.any_some, ← hletter hc hhead, ((hgrouped.mem_iff hc htc).mp hhc).2, hty]
  obtain ⟨c', hc'⟩ := Option.isSome_iff_exists.mp hsome
  have hany : (it.head c').any (·.cleanup) = true := by simpa using List.find?_some hc'
  obtain ⟨head, hhead, hcleanup⟩ := (Option.any_eq_true ..).mp hany
  have hhy : head.label.letter = some y :=
    (hletter (List.mem_of_find?_eq_some hc') hhead).mpr hcleanup
  subst hy
  rw [Automata.Automaton.getLifetime, Automata.Automaton.cleanup, hc', Option.getD_some, hhead,
    Option.map_some, label_of_letter hhy]

/-- All that the end can do is clean up. -/
theorem cleanup_of_symbol (it : Iteration) (l : Runtime.Lifetime) :
    ∀ v ∈ (buildAutomatonDescription it a l).onSymbol
      (buildAutomatonDescription it a l).taCleanupSymbol, v.cleanup = true := by
  intro v hv
  obtain ⟨t, ht, hty⟩ := hlife.closes
  obtain ⟨c, hmem, hrow⟩ := row_of_letter it l ht hty
  rw [taCleanupSymbol_eq hlife, Runtime.Automaton.onSymbol, hrow] at hv
  obtain ⟨u, hu, rfl⟩ := List.mem_map.mp hv
  obtain ⟨hu, huy⟩ := (hmem u).mp hu
  rw [buildTransition_cleanup]
  exact (hlife.ends u hu).mp huy

include hdet

/-- The first row is the beginning, and no other row begins anything. -/
theorem rows_eq (it : Iteration) (l : Runtime.Lifetime) :
    ∃ c rows, c ∈ a.graph.transitions ∧ c.label.letter = some x ∧
      (buildAutomatonDescription it a l).taTransitions = [buildTransition a.graph c] :: rows ∧
      ∀ row ∈ rows, ∀ v ∈ row, v.init = false := by
  obtain ⟨c, cs, hcons, hcx⟩ := hlife.first
  have hmem : c ∈ a.graph.transitions := hcons ▸ List.mem_cons_self
  obtain ⟨cl, cls, hclasses, hccl⟩ := groupClasses_cons it c cs
  rw [← hcons] at hclasses
  have hgrouped := grouped it a.graph.transitions
  rw [hclasses] at hgrouped
  have hread : ∀ u, u ∈ cl ↔ u ∈ a.graph.transitions ∧ u.label.letter = some x := by
    intro u
    rw [hgrouped.mem_iff List.mem_cons_self hccl, hcx]
  -- all of them leave the start, so there is one
  have hone : ∀ u ∈ cl, u = c := by
    intro u hu
    obtain ⟨hu, hux⟩ := (hread u).mp hu
    have hsource : ∀ v ∈ a.graph.transitions, v.label.letter = some x → v.source = 0 :=
      fun v hv hvx => hlife.start v hv ((hlife.begins v hv).mp hvx)
    refine List.inj_on_of_nodup_map hdet hu hmem ?_
    rw [hsource u hu hux, hsource c hmem hcx, hux, hcx]
  have hnodup : cl.Nodup := by
    have hflat := (groupClasses_perm it a.graph.transitions).nodup_iff.mpr (List.Nodup.of_map _ hdet)
    rw [hclasses] at hflat
    exact hflat.sublist (List.sublist_flatten_of_mem List.mem_cons_self)
  have hcl : cl = [c] := by
    refine List.perm_singleton.mp ((List.perm_ext_iff_of_nodup hnodup (List.nodup_singleton c)).mpr ?_)
    intro u
    rw [List.mem_singleton]
    exact ⟨hone u, fun hu => hu ▸ hccl⟩
  refine ⟨c, cls.map fun c => (it.walk c).map (buildTransition a.graph), hmem, hcx, ?_, ?_⟩
  · have hwalk : it.walk cl = [c] := List.perm_singleton.mp (hcl ▸ it.perm cl)
    rw [buildAutomatonDescription, hclasses, List.map_cons, hwalk]
    rfl
  · intro row hrow v hv
    obtain ⟨cl', hcl', rfl⟩ := List.mem_map.mp hrow
    obtain ⟨u, hu, rfl⟩ := List.mem_map.mp hv
    have hu' := (it.perm cl').mem_iff.mp hu
    have hapart := (List.pairwise_cons.mp hgrouped.apart).1 cl' hcl' c hccl u hu'
    have hux : u ∈ a.graph.transitions := by
      obtain ⟨o, ho⟩ := hgrouped.classes cl' (List.mem_cons_of_mem _ hcl')
      exact ((ho u).mp hu').1
    rw [buildTransition_init, Bool.eq_false_iff]
    exact fun hinit => hapart (hcx.trans ((hlife.begins u hux).mpr hinit).symm)

/-- The automaton at run time is one without variables, and late initialisation finds where it
begins. -/
theorem plain_of_hasLifetime (hblank : Blank a.graph) (it : Iteration) (l : Runtime.Lifetime) :
    ∃ c ∈ a.graph.transitions, c.label.letter = some x ∧
      (buildAutomatonDescription it a l).Plain (buildTransition a.graph c) := by
  obtain ⟨c, rows, hc, hcx, hrows, hplain⟩ := rows_eq hlife hdet it l
  have hinit : (buildTransition a.graph c).init = true := by
    rw [buildTransition_init]
    exact (hlife.begins c hc).mp hcx
  refine ⟨c, hc, hcx, ?_, ?_, row_nodup hdet, ?_, ?_, ?_, hlife.fresh c hc⟩
  · intro v hv
    obtain ⟨t, _, rfl⟩ := has_iff.mp hv
    exact stateMask_of_blank hblank t.source
  · intro v hv
    obtain ⟨t, _, rfl⟩ := has_iff.mp hv
    exact stateMask_of_blank hblank t.dest
  · intro row hrow v hv
    obtain ⟨t, ht, rfl⟩ := has_iff.mp ⟨row, hrow, hv⟩
    exact hlife.fresh t ht
  · rw [initTransition, hrows, List.flatten_cons, List.singleton_append, List.find?_cons_of_pos hinit]
  · have hrest : foundFrom (buildAutomatonDescription it a l) rows.length 1 = [] := by
      refine foundFrom_plain (n := 1) (fun j row hj hrow v hv => ?_) (Nat.le_refl 1)
      obtain ⟨j, rfl⟩ : ∃ i, j = i + 1 := ⟨j - 1, by omega⟩
      rw [hrows, List.getElem?_cons_succ] at hrow
      exact hplain row (List.mem_of_getElem? hrow) v hv
    have hzero : (buildAutomatonDescription it a l).taTransitions[0]? =
        some [buildTransition a.graph c] := by
      rw [hrows]
      rfl
    rw [initHits_eq_found, found, Runtime.Automaton.taAlphabetSize, hrows, List.length_cons,
      foundFrom, hzero]
    simp [hinit, hrest]

/-- From its start, the automaton reads what the graph reads after the beginning. -/
theorem path_start (hblank : Blank a.graph) (hnull : ∀ t ∈ a.graph.transitions, t.label.letter ≠ none)
    (hw : ∀ b ∈ w, Occurs a.graph b) :
    (buildAutomatonDescription it a l).path (buildAutomatonDescription it a l).start
      (w.map (symbolOf it a.graph)) = some q ↔ q ∈ a.graph.reached (x :: w) := by
  obtain ⟨c, hc, hcx, hplain⟩ := plain_of_hasLifetime hlife hdet hblank it l
  have hzero : c.source = 0 := hlife.start c hc ((hlife.begins c hc).mp hcx)
  have hbegin : (buildAutomatonDescription it a l).next 0 (symbolOf it a.graph x) =
      some (buildTransition a.graph c) :=
    (next_symbolOf hdet ⟨c, hc, hcx⟩).mpr ⟨c, hc, hzero, hcx, rfl⟩
  have hall : ∀ b ∈ x :: w, Occurs a.graph b := List.forall_mem_cons.mpr ⟨⟨c, hc, hcx⟩, hw⟩
  rw [Graph.mem_reached, ← path_symbols hdet hnull hall, List.map_cons, Automaton.path_cons, hbegin,
    hplain.start_eq]
  rfl

/-- A window is accepted if and only if the graph reads it, between the beginning and the end. -/
theorem accepts_iff (hblank : Blank a.graph) (hnull : ∀ t ∈ a.graph.transitions, t.label.letter ≠ none)
    {v : Span} (hw : ∀ b ∈ w, Occurs a.graph b)
    (hv : v.events.map Prod.fst = w.map (symbolOf it a.graph)) (hjunk : v.junk.tkFreemask = 0) :
    (buildAutomatonDescription it a l).Accepts v ↔
      w = [] ∨ (a.graph.reached ([x] ++ w ++ [y])).Nonempty := by
  obtain ⟨t, ht, hty⟩ := hlife.closes
  have hall : ∀ b ∈ w ++ [y], Occurs a.graph b :=
    List.forall_mem_append.mpr ⟨hw, List.forall_mem_singleton.mpr ⟨t, ht, hty⟩⟩
  have hnil : v.events = [] ↔ w = [] := by
    rw [← List.map_eq_nil_iff (f := Prod.fst), hv, List.map_eq_nil_iff]
  have hword : v.events.map Prod.fst ++ [(buildAutomatonDescription it a l).taCleanupSymbol] =
      (w ++ [y]).map (symbolOf it a.graph) := by
    rw [hv, taCleanupSymbol_eq hlife, List.map_append]
    rfl
  rw [Automaton.Accepts, hnil, hword, and_iff_right hjunk, Option.isSome_iff_exists]
  simp only [path_start hlife hdet hblank hnull hall]
  rfl

end Lifetime

end Tesla.Instrumenter
