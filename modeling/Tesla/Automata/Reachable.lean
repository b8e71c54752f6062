/-
# `Tesla.Automata.Reachable` — the transitions between two states

`CalculateReachableTransitionsBetween` is a depth-first search that marks
transitions, not states, and does not go on from its `End`.  What it leaves in
the list is

    sound     only transitions out of states within reach     (`reachableFrom_sound`)
    closed    with a transition, all that leave its target    (`reachableFrom_closed`)
    once      no transition is marked twice                   (`reachableFrom_nodup`)

The second holds because the number of unmarked transitions bounds the depth:
every level of the recursion marks one.  For the same reason the search comes to
an end: `searchBetween`, which is `none` when it is cut off, is never cut off at
a depth beyond the number of transitions.
-/
import Tesla.Automata.Parser

namespace Tesla.Automata

variable {g : Graph} {stop start depth : Nat} {ts us : List (Transition × Nat)}
  {t u : Transition × Nat}

/-- One transition met by the search. -/
def visit (g : Graph) (stop depth : Nat) (ts : List (Transition × Nat)) (t : Transition × Nat) :
    List (Transition × Nat) :=
  if t ∈ ts then ts else reachableFrom g stop depth t.1.dest (ts ++ [t])

theorem reachableFrom_succ :
    reachableFrom g stop (depth + 1) start ts =
      if start = stop then ts else (g.out start).foldl (visit g stop depth) ts := rfl

theorem subset_foldl_visit
    (ih : ∀ start ts, ∀ t ∈ ts, t ∈ reachableFrom g stop depth start ts) (ht : t ∈ ts) :
    t ∈ us.foldl (visit g stop depth) ts := by
  induction us generalizing ts with
  | nil => exact ht
  | cons u us hus =>
    refine hus ?_
    simp only [visit]
    split
    · exact ht
    · exact ih _ _ t (List.mem_append_left _ ht)

/-- What is marked stays marked. -/
theorem subset_reachableFrom (ht : t ∈ ts) : t ∈ reachableFrom g stop depth start ts := by
  induction depth generalizing start ts t with
  | zero => exact ht
  | succ depth ih =>
    rw [reachableFrom_succ]
    split
    · exact ht
    · exact subset_foldl_visit (fun _ _ _ h => ih h) ht

theorem subset_visit (ht : t ∈ ts) : t ∈ visit g stop depth ts u := by
  rw [visit]
  split
  · exact ht
  · exact subset_reachableFrom (List.mem_append_left _ ht)

/-! ## Only transitions within reach -/

/-- A transition out of a state with property `S`, not the last one. -/
def Leaves (g : Graph) (stop : Nat) (S : Nat → Prop) (t : Transition × Nat) : Prop :=
  t ∈ g.transitions.zipIdx ∧ S t.1.source ∧ t.1.source ≠ stop

section Sound

variable {S : Nat → Prop} (hS : ∀ t, Leaves g stop S t → S t.1.dest)

include hS

theorem foldl_visit_sound
    (ih : ∀ start ts, S start → ∀ t ∈ reachableFrom g stop depth start ts,
      t ∈ ts ∨ Leaves g stop S t)
    (hus : ∀ u ∈ us, Leaves g stop S u) (ht : t ∈ us.foldl (visit g stop depth) ts) :
    t ∈ ts ∨ Leaves g stop S t := by
  induction us generalizing ts with
  | nil => exact .inl ht
  | cons u us hrec =>
    obtain h | h := hrec (fun u' hu' => hus u' (List.mem_cons_of_mem _ hu')) ht
    · simp only [visit] at h
      split at h
      · exact .inl h
      · have hu := hus u (List.mem_cons_self ..)
        obtain h | h := ih _ _ (hS u hu) t h
        · obtain h | h := List.mem_append.mp h
          · exact .inl h
          · exact .inr (List.mem_singleton.mp h ▸ hu)
        · exact .inr h
    · exact .inr h

theorem reachableFrom_sound (hstart : S start) (ht : t ∈ reachableFrom g stop depth start ts) :
    t ∈ ts ∨ Leaves g stop S t := by
  induction depth generalizing start ts t with
  | zero => exact .inl ht
  | succ depth ih =>
    rw [reachableFrom_succ] at ht
    split at ht
    · exact .inl ht
    · next hne =>
      refine foldl_visit_sound hS (fun _ _ h _ => ih h) ?_ ht
      intro u hu
      obtain ⟨hmem, rfl⟩ := Graph.mem_out.mp hu
      exact ⟨hmem, hstart, hne⟩

end Sound

/-! ## All transitions within reach -/

/-- All that leave a state, unless it is the last one, are marked. -/
def Expanded (g : Graph) (stop : Nat) (ts : List (Transition × Nat)) (s : Nat) : Prop :=
  s = stop ∨ ∀ u ∈ g.out s, u ∈ ts

theorem Expanded.mono {s : Nat} (h : Expanded g stop ts s) (hsub : ∀ t ∈ ts, t ∈ us) :
    Expanded g stop us s :=
  h.imp_right fun h u hu => hsub u (h u hu)

/-- How many transitions are not marked. -/
def unmarked (g : Graph) (ts : List (Transition × Nat)) : Nat :=
  (g.transitions.zipIdx.filter (· ∉ ts)).length

theorem unmarked_le (hsub : ∀ t ∈ ts, t ∈ us) : unmarked g us ≤ unmarked g ts := by
  refine (List.monotone_filter_right _ ?_).length_le
  intro t ht
  simp only [decide_eq_true_eq] at ht ⊢
  exact fun h => ht (hsub t h)

theorem unmarked_lt (hu : u ∈ g.transitions.zipIdx) (hts : u ∉ ts) :
    unmarked g (ts ++ [u]) < unmarked g ts := by
  have hsub : (g.transitions.zipIdx.filter (· ∉ ts ++ [u])).Sublist
      (g.transitions.zipIdx.filter (· ∉ ts)) := by
    refine List.monotone_filter_right _ ?_
    intro t ht
    simp only [decide_eq_true_eq] at ht ⊢
    exact fun h => ht (List.mem_append_left _ h)
  refine lt_of_le_of_ne hsub.length_le fun heq => ?_
  have hmem : u ∈ g.transitions.zipIdx.filter (· ∉ ts) := by simp [hu, hts]
  rw [← hsub.eq_of_length heq] at hmem
  simp at hmem

theorem foldl_visit_closed
    (ih : ∀ start ts, unmarked g ts < depth →
      Expanded g stop (reachableFrom g stop depth start ts) start ∧
        ∀ t ∈ reachableFrom g stop depth start ts, t ∉ ts →
          Expanded g stop (reachableFrom g stop depth start ts) t.1.dest)
    (hus : ∀ u ∈ us, u ∈ g.transitions.zipIdx) (hdepth : unmarked g ts ≤ depth) :
    (∀ u ∈ us, u ∈ us.foldl (visit g stop depth) ts) ∧
      ∀ t ∈ us.foldl (visit g stop depth) ts, t ∉ ts →
        Expanded g stop (us.foldl (visit g stop depth) ts) t.1.dest := by
  induction us generalizing ts with
  | nil => exact ⟨fun u hu => absurd hu List.not_mem_nil, fun t ht h => absurd ht h⟩
  | cons u us hrec =>
    have hsub : ∀ t ∈ ts, t ∈ visit g stop depth ts u := fun t ht => subset_visit ht
    obtain ⟨hmem, hexp⟩ := hrec (fun v hv => hus v (List.mem_cons_of_mem _ hv))
      ((unmarked_le hsub).trans hdepth)
    have hkeep : ∀ t ∈ visit g stop depth ts u,
        t ∈ us.foldl (visit g stop depth) (visit g stop depth ts u) :=
      fun t ht => subset_foldl_visit (fun _ _ _ h => subset_reachableFrom h) ht
    -- `u` and what was marked below it: by the deeper call, unless `u` was marked before
    have hvisit : u ∈ visit g stop depth ts u ∧ ∀ t ∈ visit g stop depth ts u, t ∉ ts →
        Expanded g stop (visit g stop depth ts u) t.1.dest := by
      simp only [visit]
      split
      · next hu => exact ⟨hu, fun t ht h => absurd ht h⟩
      · next hu =>
        have hlt := unmarked_lt (hus u (List.mem_cons_self ..)) hu
        obtain ⟨hstart, hall⟩ := ih u.1.dest (ts ++ [u]) (by omega)
        refine ⟨subset_reachableFrom (by simp), fun t ht hts => ?_⟩
        by_cases htu : t = u
        · exact htu ▸ hstart
        · exact hall t ht (by simp [hts, htu])
    refine ⟨?_, fun t ht hts => ?_⟩
    · intro v hv
      obtain rfl | hv := List.mem_cons.mp hv
      · exact hkeep _ hvisit.1
      · exact hmem v hv
    · by_cases hv : t ∈ visit g stop depth ts u
      · exact (hvisit.2 t hv hts).mono hkeep
      · exact hexp t ht hv

theorem reachableFrom_closed (hdepth : unmarked g ts < depth) :
    Expanded g stop (reachableFrom g stop depth start ts) start ∧
      ∀ t ∈ reachableFrom g stop depth start ts, t ∉ ts →
        Expanded g stop (reachableFrom g stop depth start ts) t.1.dest := by
  induction depth generalizing start ts with
  | zero => omega
  | succ depth ih =>
    rw [reachableFrom_succ]
    split
    · next heq => exact ⟨.inl heq, fun t ht h => absurd ht h⟩
    · have hout : ∀ u ∈ g.out start, u ∈ g.transitions.zipIdx :=
        fun u hu => (Graph.mem_out.mp hu).1
      obtain ⟨hmem, hexp⟩ := foldl_visit_closed (fun _ _ h => ih h) hout (Nat.lt_succ_iff.mp hdepth)
      exact ⟨.inr hmem, hexp⟩

theorem unmarked_nil : unmarked g [] = g.transitions.length := by simp [unmarked]

/-- The list has all that can be walked from the start without passing the end. -/
theorem calculateReachable_closed (g : Graph) (start stop : Nat) :
    Expanded g stop (calculateReachableTransitionsBetween g start stop) start ∧
      ∀ t ∈ calculateReachableTransitionsBetween g start stop,
        Expanded g stop (calculateReachableTransitionsBetween g start stop) t.1.dest := by
  have hdepth : unmarked g [] < g.transitions.length + 1 := by
    rw [unmarked_nil]
    exact Nat.lt_succ_self _
  obtain ⟨hstart, hall⟩ := reachableFrom_closed hdepth
  exact ⟨hstart, fun t ht => hall t ht List.not_mem_nil⟩

theorem calculateReachable_sound {S : Nat → Prop} (hS : ∀ t, Leaves g stop S t → S t.1.dest)
    (hstart : S start) (ht : t ∈ calculateReachableTransitionsBetween g start stop) :
    Leaves g stop S t :=
  (reachableFrom_sound hS hstart ht).resolve_left List.not_mem_nil

/-! ## Each transition once -/

theorem foldl_visit_nodup
    (ih : ∀ start ts, ts.Nodup → (reachableFrom g stop depth start ts).Nodup) (h : ts.Nodup) :
    (us.foldl (visit g stop depth) ts).Nodup := by
  induction us generalizing ts with
  | nil => exact h
  | cons u us hrec =>
    refine hrec ?_
    rw [visit]
    split
    · exact h
    · next hu => exact ih _ _ (List.nodup_append_comm.mp (List.nodup_cons.mpr ⟨hu, h⟩))

theorem reachableFrom_nodup (h : ts.Nodup) : (reachableFrom g stop depth start ts).Nodup := by
  induction depth generalizing start ts with
  | zero => exact h
  | succ depth ih =>
    rw [reachableFrom_succ]
    split
    · exact h
    · exact foldl_visit_nodup (fun _ _ h => ih h) h

/-! ## The search comes to an end -/

/-- `CalculateReachableTransitionsBetween`; `none` when it would go deeper than it may. -/
def searchBetween (g : Graph) (stop : Nat) :
    Nat → Nat → List (Transition × Nat) → Option (List (Transition × Nat))
  | 0, _, _ => none
  | depth + 1, start, ts =>
    if start = stop then some ts
    else (g.out start).foldlM (fun ts t =>
      if t ∈ ts then some ts else searchBetween g stop depth t.1.dest (ts ++ [t])) ts

theorem foldlM_search
    (ih : ∀ start ts, unmarked g ts < depth →
      searchBetween g stop depth start ts = some (reachableFrom g stop depth start ts))
    (hus : ∀ u ∈ us, u ∈ g.transitions.zipIdx) (hdepth : unmarked g ts ≤ depth) :
    us.foldlM (fun ts t =>
        if t ∈ ts then some ts else searchBetween g stop depth t.1.dest (ts ++ [t])) ts =
      some (us.foldl (visit g stop depth) ts) := by
  induction us generalizing ts with
  | nil => rfl
  | cons u us hrec =>
    obtain ⟨hu, hus⟩ := List.forall_mem_cons.mp hus
    have hvisit : (if u ∈ ts then some ts else searchBetween g stop depth u.1.dest (ts ++ [u])) =
        some (visit g stop depth ts u) := by
      rw [visit]
      split
      · rfl
      · next hnew => exact ih _ _ (Nat.lt_of_lt_of_le (unmarked_lt hu hnew) hdepth)
    have hle : unmarked g (visit g stop depth ts u) ≤ depth :=
      (unmarked_le fun t ht => subset_visit ht).trans hdepth
    rw [List.foldlM_cons, hvisit, List.foldl_cons]
    exact hrec hus hle

/-- A search with less to mark than it may go deep is not cut off. -/
theorem search_eq (hdepth : unmarked g ts < depth) :
    searchBetween g stop depth start ts = some (reachableFrom g stop depth start ts) := by
  induction depth generalizing start ts with
  | zero => omega
  | succ depth ih =>
    rw [searchBetween, reachableFrom_succ]
    split
    · rfl
    · have hout : ∀ u ∈ g.out start, u ∈ g.transitions.zipIdx :=
        fun u hu => (Graph.mem_out.mp hu).1
      exact foldlM_search (fun _ _ h => ih h) hout (Nat.lt_succ_iff.mp hdepth)

theorem foldlM_mono {α β : Type} {f f' : β → α → Option β} {b b' : β} {l : List α}
    (hf : ∀ b a b', f b a = some b' → f' b a = some b') (h : l.foldlM f b = some b') :
    l.foldlM f' b = some b' := by
  induction l generalizing b with
  | nil => exact h
  | cons a l ih =>
    obtain ⟨c, hc, h⟩ := Option.bind_eq_some_iff.mp h
    rw [List.foldlM_cons, hf b a c hc]
    exact ih h

theorem search_succ (h : searchBetween g stop depth start ts = some us) :
    searchBetween g stop (depth + 1) start ts = some us := by
  induction depth generalizing start ts us with
  | zero => cases h
  | succ depth ih =>
    rw [searchBetween] at h ⊢
    split
    · next heq => rwa [if_pos heq] at h
    · next hne =>
      rw [if_neg hne] at h
      refine foldlM_mono (fun ts t ts' ht => ?_) h
      split
      · next hmem => rwa [if_pos hmem] at ht
      · next hmem =>
        rw [if_neg hmem] at ht
        exact ih ht

theorem search_mono {depth' : Nat} (hle : depth ≤ depth')
    (h : searchBetween g stop depth start ts = some us) :
    searchBetween g stop depth' start ts = some us := by
  induction hle with
  | refl => exact h
  | step _ ih => exact search_succ ih

/-! ## Paths -/

/-- The states that paths from `start` lead to that do not pass through `stop`. -/
inductive Avoiding (g : Graph) (stop start : Nat) : Nat → Prop
  | start (hne : start ≠ stop) : Avoiding g stop start start
  | step {t : Transition} (h : Avoiding g stop start t.source) (ht : t ∈ g.transitions)
      (hne : t.dest ≠ stop) : Avoiding g stop start t.dest

theorem Avoiding.ne {s : Nat} (h : Avoiding g stop start s) : s ≠ stop := by
  cases h with
  | start hne => exact hne
  | step _ _ hne => exact hne

/-- What is in the list leaves a state on such a path. -/
theorem avoiding_of_mem (ht : t ∈ calculateReachableTransitionsBetween g start stop) :
    Avoiding g stop start t.1.source := by
  have hleaves : Leaves g stop (fun s => s = stop ∨ Avoiding g stop start s) t := by
    refine calculateReachable_sound (fun u hu => ?_) ?_ ht
    · obtain ⟨hmem, hsource, hne⟩ := hu
      by_cases hdest : u.1.dest = stop
      · exact .inl hdest
      · exact .inr ((hsource.resolve_left hne).step (List.fst_mem_of_mem_zipIdx hmem) hdest)
    · by_cases hstart : start = stop
      · exact .inl hstart
      · exact .inr (.start hstart)
  exact hleaves.2.1.resolve_left hleaves.2.2

/-- The states on such paths have all their transitions in the list. -/
theorem mem_of_avoiding {s : Nat} (h : Avoiding g stop start s) :
    ∀ u ∈ g.out s, u ∈ calculateReachableTransitionsBetween g start stop := by
  obtain ⟨hstart, hall⟩ := calculateReachable_closed g start stop
  induction h with
  | start hne => exact hstart.resolve_left hne
  | @step t _ ht hne ih =>
    obtain ⟨i, hi⟩ := List.mem_iff_getElem?.mp ht
    have hmem := ih (t, i) (Graph.mem_out.mpr ⟨List.mk_mem_zipIdx_iff_getElem?.mpr hi, rfl⟩)
    exact (hall (t, i) hmem).resolve_left hne

/-- The search ends, and leaves the transitions out of the states that paths from `start` lead
to without passing through `stop`, each once. -/
theorem calculateReachable_exact (g : Graph) (start stop : Nat) :
    (∀ depth, g.transitions.length < depth → searchBetween g stop depth start [] =
        some (calculateReachableTransitionsBetween g start stop)) ∧
      (calculateReachableTransitionsBetween g start stop).Nodup ∧
      (∀ t, t ∈ calculateReachableTransitionsBetween g start stop ↔
        t ∈ g.transitions.zipIdx ∧ Avoiding g stop start t.1.source) ∧
      (start = stop → calculateReachableTransitionsBetween g start stop = []) := by
  have hmem (t : Transition × Nat) : t ∈ calculateReachableTransitionsBetween g start stop ↔
      t ∈ g.transitions.zipIdx ∧ Avoiding g stop start t.1.source := by
    constructor
    · intro ht
      have hleaves := calculateReachable_sound (S := fun _ => True) (fun _ _ => trivial) trivial ht
      exact ⟨hleaves.1, avoiding_of_mem ht⟩
    · rintro ⟨ht, hpath⟩
      exact mem_of_avoiding hpath t (Graph.mem_out.mpr ⟨ht, rfl⟩)
  refine ⟨fun depth hdepth => ?_, reachableFrom_nodup List.nodup_nil, hmem, ?_⟩
  · have hsearch : searchBetween g stop (g.transitions.length + 1) start [] =
        some (calculateReachableTransitionsBetween g start stop) := by
      refine search_eq ?_
      rw [unmarked_nil]
      exact Nat.lt_succ_self _
    exact search_mono hdepth hsearch
  · rintro rfl
    exact if_pos rfl

end Tesla.Automata
