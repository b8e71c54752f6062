/-
# `Tesla.Automata.InclusiveOr` — the grid of `ConvertIncOrToExcOr`

The grid has a row for each transition of the left operand and a column for each
transition of the right one.  A left operand that is a single event gives it one
row, which is then the last one: every state of the copied right operand gets a
null transition to the join, and the event leads from each state of the right
operand to its copy.  That is `Piece.merge`.

With a longer left operand the rows in between join in their last column only,
and a null transition of it is not copied at all (`Graph.copy`), so rows can be
out of reach of one another.
-/
import Tesla.Automata.Construction
import Tesla.Automata.Reachable

namespace Tesla.Automata

open Lib Computability

variable {g g' : Graph} {s s' n p q : ℕ} {sm sm' : List (ℕ × ℕ)}

/-! ## Copies of transitions -/

/-- A transition that reads something is copied. -/
theorem copy_grows {t : Transition} (ht : t.label ≠ .null) (g : Graph) (p q : ℕ) :
    ∃ c : Transition, Grows g (g.copy p q t false) [c] ∧ c.source = p ∧ c.dest = q ∧
      c.label = t.label := by
  obtain ⟨g', c, heq, htrans, hstates, hc⟩ := Graph.copy_eq_register ht g p q
  have hg' : Grows g g' [] := ⟨by rw [hstates], by rw [htrans, List.append_nil], by
    simp [Graph.flags, hstates]⟩
  exact ⟨c, heq ▸ hg'.trans (.register g' c), hc⟩

/-! ## Copies of states -/

/-- The copy of `p` under a state map. -/
def copyOf (sm : List (ℕ × ℕ)) (p : ℕ) : ℕ := (sm.lookup p).getD 0

/-- A state map: `s` goes to `s'`, every other state to a new one of its own. -/
structure CopyMap (sm : List (ℕ × ℕ)) (s s' n n' : ℕ) : Prop where
  start : sm.lookup s = some s'
  fresh : ∀ p q, sm.lookup p = some q → p ≠ s → n ≤ q ∧ q < n'
  inj : ∀ p p' q, sm.lookup p = some q → sm.lookup p' = some q → p = p'

theorem CopyMap.mono {n n' n'' : ℕ} (h : CopyMap sm s s' n n') (hle : n' ≤ n'') :
    CopyMap sm s s' n n'' :=
  ⟨h.start, fun p q hp hps => ⟨(h.fresh p q hp hps).1, (h.fresh p q hp hps).2.trans_le hle⟩, h.inj⟩

/-- What is mapped stays mapped. -/
def Extends (sm sm' : List (ℕ × ℕ)) : Prop := ∀ p q, sm.lookup p = some q → sm'.lookup p = some q

theorem Extends.isSome (h : Extends sm sm') (hp : (sm.lookup p).isSome) :
    (sm'.lookup p).isSome := by
  obtain ⟨q, hq⟩ := Option.isSome_iff_exists.mp hp
  rw [h p q hq]
  rfl

theorem Extends.trans {sm₁ : List (ℕ × ℕ)} (h : Extends sm sm₁) (h' : Extends sm₁ sm') :
    Extends sm sm' := fun p q hp => h' p q (h p q hp)

theorem lookup_cons_of_lookup_none {x : ℕ} (hp : sm.lookup p = none) :
    Extends sm ((p, x) :: sm) := by
  intro q y hq
  rw [List.lookup_cons]
  have hne : (q == p) = false := by
    rw [beq_eq_false_iff_ne]
    rintro rfl
    rw [hp] at hq
    cases hq
  rw [hne]
  exact hq

theorem stateCopy_spec (hsm : CopyMap sm s s' n g.states.length) (hs' : s' < n)
    (hn : n ≤ g.states.length) (p : ℕ) :
    ∃ x sm' g', stateCopy sm g p = (x, sm', g') ∧ Grows g g' [] ∧
      CopyMap sm' s s' n g'.states.length ∧ Extends sm sm' ∧ sm'.lookup p = some x := by
  have hnew : (g.newState false false [] none).1 = g.states.length := rfl
  simp only [stateCopy, hnew]
  split
  · next x hx => exact ⟨x, sm, g, rfl, .refl g, hsm, fun _ _ h => h, hx⟩
  · next hp =>
    have hps : p ≠ s := by
      rintro rfl
      rw [hsm.start] at hp
      cases hp
    have hext : Extends sm ((p, g.states.length) :: sm) := lookup_cons_of_lookup_none hp
    have hcases : ∀ q y, ((p, g.states.length) :: sm).lookup q = some y →
        q = p ∧ y = g.states.length ∨ sm.lookup q = some y := by
      intro q y hq
      rw [List.lookup_cons] at hq
      split at hq
      · next heq => exact .inl ⟨by simpa using heq, (Option.some.inj hq).symm⟩
      · exact .inr hq
    have hbound : ∀ q y, sm.lookup q = some y → y < g.states.length := by
      intro q y hq
      by_cases hqs : q = s
      · subst hqs
        rw [hsm.start] at hq
        obtain rfl := Option.some.inj hq
        omega
      · exact (hsm.fresh q y hq hqs).2
    refine ⟨g.states.length, _, _, rfl, .newState g, ⟨hext s s' hsm.start, ?_, ?_⟩, hext,
      by simp⟩
    · intro q y hq hqs
      rw [Graph.newState_length]
      obtain ⟨rfl, rfl⟩ | hq := hcases q y hq
      · omega
      · have := hsm.fresh q y hq hqs
        omega
    · intro q q' y hq hq'
      obtain ⟨rfl, rfl⟩ | hold := hcases q y hq
      · obtain ⟨rfl, _⟩ | hold' := hcases q' _ hq'
        · rfl
        · exact absurd (hbound q' _ hold') (lt_irrefl _)
      · obtain ⟨rfl, rfl⟩ | hold' := hcases q' y hq'
        · exact absurd (hbound q _ hold) (lt_irrefl _)
        · exact hsm.inj q q' y hold hold'

/-! ## Copies of chains -/

theorem cloneTransition_grows (t : Transition) (g : Graph) (p q : ℕ) :
    ∃ c : Transition, Grows g (cloneTransition g p q t) [c] ∧
      c.edge = ⟨p, t.label.letter, q⟩ := by
  rw [cloneTransition]
  split
  · next h =>
    refine ⟨_, .createNull g p q, ?_⟩
    rw [h]
    rfl
  · next h =>
    obtain ⟨c, hc, rfl, rfl, hlabel⟩ := copy_grows h g p q
    exact ⟨c, hc, by rw [Transition.edge, hlabel]⟩

theorem createTransitionChainCopy_spec (chain : List (Transition × ℕ))
    (hsm : CopyMap sm s s' n g.states.length) (hs' : s' < n) (hn : n ≤ g.states.length) :
    ∃ clone g' sm', createTransitionChainCopy chain sm g = (clone, g') ∧ Grows g g' clone ∧
      CopyMap sm' s s' n g'.states.length ∧ Extends sm sm' ∧
      (∀ t ∈ chain, (sm'.lookup t.1.source).isSome ∧ (sm'.lookup t.1.dest).isSome) ∧
      clone.map Transition.edge = chain.map fun t =>
        ⟨copyOf sm' t.1.source, t.1.label.letter, copyOf sm' t.1.dest⟩ := by
  induction chain generalizing sm g with
  | nil =>
    exact ⟨[], g, sm, rfl, .refl g, hsm, fun _ _ h => h, fun t ht => absurd ht List.not_mem_nil, rfl⟩
  | cons t chain ih =>
    obtain ⟨x, sm₁, g₁, heq₁, hgrows₁, hsm₁, hext₁, hx⟩ := stateCopy_spec hsm hs' hn t.1.source
    obtain ⟨y, sm₂, g₂, heq₂, hgrows₂, hsm₂, hext₂, hy⟩ :=
      stateCopy_spec hsm₁ hs' (hn.trans hgrows₁.le) t.1.dest
    obtain ⟨c, hgrows₃, hedge⟩ := cloneTransition_grows t.1 g₂ x y
    set g₃ := cloneTransition g₂ x y t.1 with hg₃
    have hlen : g₂.states.length ≤ g₃.states.length := hgrows₃.le
    obtain ⟨clone, g', sm', heq, hgrows, hsm', hext, hall, hedges⟩ :=
      ih (hsm₂.mono hlen) ((hn.trans hgrows₁.le).trans (hgrows₂.le.trans hlen))
    have hlast : g₃.transitions.getLast? = some c := by
      rw [hgrows₃.transitions, List.getLast?_append]
      rfl
    have hsrc : sm'.lookup t.1.source = some x := hext _ _ (hext₂ _ _ hx)
    have hdst : sm'.lookup t.1.dest = some y := hext _ _ hy
    refine ⟨c :: clone, g', sm', ?_, ?_, hsm', (hext₁.trans hext₂).trans hext, ?_, ?_⟩
    · simp only [createTransitionChainCopy, heq₁, heq₂, ← hg₃, heq, hlast]
      rfl
    · exact ((hgrows₁.trans hgrows₂).trans hgrows₃).trans hgrows
    · intro u hu
      obtain rfl | hu := List.mem_cons.mp hu
      · rw [hsrc, hdst]
        exact ⟨rfl, rfl⟩
      · exact hall u hu
    · rw [List.map_cons, List.map_cons, hedge, hedges, copyOf, copyOf, hsrc, hdst]
      rfl

/-! ## The row of a single event -/

theorem fillRow_grows {t1 : Transition} {a : Letter} (ha : t1.label.letter = some a) {j : ℕ}
    (cells : List (ℕ × Transition)) (g : Graph) :
    ∃ ts, Grows g (fillRow t1 true j cells g) ts ∧
      ts.map Transition.edge = (cells.map fun c => (c.1, c.2.dest)).flatMap fun c =>
        [⟨c.1, some a, c.2⟩, ⟨c.2, none, j⟩] := by
  have hnull : t1.label ≠ .null := by
    intro h
    rw [h] at ha
    cases ha
  induction cells generalizing g with
  | nil => exact ⟨[], .refl g, rfl⟩
  | cons cell cells ih =>
    obtain ⟨above, t2⟩ := cell
    obtain ⟨c, hcopy, rfl, hdest, hlabel⟩ := copy_grows hnull g above t2.dest
    obtain ⟨ts, hgrows, hedges⟩ := ih ((g.copy c.source t2.dest t1 false).createNull t2.dest j)
    refine ⟨[c] ++ [⟨t2.dest, j, .null, false, false, false⟩] ++ ts, ?_, ?_⟩
    · simp only [fillRow, Bool.true_or, if_true]
      exact (hcopy.trans (.createNull _ t2.dest j)).trans hgrows
    · have hc : c.edge = ⟨c.source, some a, t2.dest⟩ := by
        rw [Transition.edge, hlabel, ha, hdest]
      simp only [List.map_append, List.map_cons, List.map_nil, hc, hedges, List.flatMap_cons]
      rfl

theorem Graph.out_eq_singleton {pre post : List Transition} {t : Transition}
    (hg : g.transitions = pre ++ t :: post) (hpre : ∀ u ∈ pre, u.source ≠ t.source)
    (hpost : ∀ u ∈ post, u.source ≠ t.source) : g.out t.source = [(t, pre.length)] := by
  have hnone : ∀ (us : List Transition) (k : ℕ), (∀ u ∈ us, u.source ≠ t.source) →
      (us.zipIdx k).filter (fun u => u.1.source = t.source) = [] := by
    intro us k hus
    refine List.filter_eq_nil_iff.mpr fun u hu => ?_
    simpa using hus u.1 (List.fst_mem_of_mem_zipIdx hu)
  rw [out, hg, List.zipIdx_append, List.filter_append, hnone pre 0 hpre, List.zipIdx_cons,
    List.filter_cons_of_pos (by simp), hnone post _ hpost]
  simp

theorem reachableFrom_self {stop depth : ℕ} {ts : List (Transition × ℕ)} :
    reachableFrom g stop depth stop ts = ts := by
  cases depth with
  | zero => rfl
  | succ depth => rw [reachableFrom_succ, if_pos rfl]

/-- Between the ends of a single transition there is only it. -/
theorem calculateReachable_single {t : Transition} {i stop : ℕ} (hout : g.out t.source = [(t, i)])
    (hdest : t.dest = stop) (hne : t.source ≠ stop) :
    calculateReachableTransitionsBetween g t.source stop = [(t, i)] := by
  rw [calculateReachableTransitionsBetween, reachableFrom_succ, if_neg hne, hout, List.foldl_cons,
    List.foldl_nil, visit, if_neg List.not_mem_nil, hdest, reachableFrom_self]
  rfl

/-! ## A single event, inclusively or an expression -/

section Merge

variable {g₁ g₂ : Graph} {t1 : Transition} {ts : List Transition} {rf : ℕ} {a : Letter}
  {r : Runs Letter}

/-- The transitions of the right operand that are within reach, and their copies. -/
theorem copied_of_reachable {n n₂ n' : ℕ}
    (hr : Piece (n + 3) n₂ (ts.map Transition.edge) (n + 1) rf r.paths r.back)
    (hown : Own (n + 1) (n + 3) n₂ rf)
    (hts : ∀ t ∈ g.transitions, Own (n + 1) (n + 3) n₂ t.source → t.source ≠ rf → t ∈ ts)
    (hsub : ∀ t ∈ ts, t ∈ g.transitions)
    (hsm : CopyMap sm (n + 1) (n + 2) (n₂ + 1) n')
    (hall : ∀ t ∈ calculateReachableTransitionsBetween g (n + 1) rf,
      (sm.lookup t.1.source).isSome ∧ (sm.lookup t.1.dest).isSome) :
    Copied (ts.map Transition.edge)
      ((calculateReachableTransitionsBetween g (n + 1) rf).map (·.1.edge))
      (n + 1) (n + 2) (n₂ + 1) n' (copyOf sm) := by
  have hleaves : ∀ t, Leaves g rf (Own (n + 1) (n + 3) n₂) t → t.1 ∈ ts :=
    fun t ht => hts t.1 (List.fst_mem_of_mem_zipIdx ht.1) ht.2.1 ht.2.2
  have hsound : ∀ t ∈ calculateReachableTransitionsBetween g (n + 1) rf, t.1 ∈ ts := by
    intro t ht
    refine hleaves t (calculateReachable_sound ?_ (.inl rfl) ht)
    intro u hu
    exact hr.dst_own hown _ (List.mem_map_of_mem (hleaves u hu))
  obtain ⟨hclosed, hclosed'⟩ := calculateReachable_closed g (n + 1) rf
  have htouched : ∀ p,
      Touched ((calculateReachableTransitionsBetween g (n + 1) rf).map (·.1.edge)) (n + 1) p →
      sm.lookup p = some (copyOf sm p) := by
    intro p hp
    have hsome : (sm.lookup p).isSome := by
      obtain rfl | ⟨e, he, hp⟩ := hp
      · rw [hsm.start]
        rfl
      · obtain ⟨t, ht, rfl⟩ := List.mem_map.mp he
        obtain rfl | rfl := hp
        · exact (hall t ht).1
        · exact (hall t ht).2
    obtain ⟨q, hq⟩ := Option.isSome_iff_exists.mp hsome
    rw [copyOf, hq]
    rfl
  refine ⟨?_, ?_, ?_, fun p hp hne => hsm.fresh p _ (htouched p hp) hne, ?_⟩
  · intro e he
    obtain ⟨t, ht, rfl⟩ := List.mem_map.mp he
    exact List.mem_map_of_mem (hsound t ht)
  · intro w p hw
    refine (hw.restrict (S := Expanded g rf
      (calculateReachableTransitionsBetween g (n + 1) rf)) ?_ hclosed).1
    intro e he hexp
    obtain ⟨t, ht, rfl⟩ := List.mem_map.mp he
    obtain ⟨i, hi⟩ := List.mem_iff_getElem?.mp (hsub t ht)
    have hmem := hexp.resolve_left (hr.exit _ he) (t, i)
      (Graph.mem_out.mpr ⟨List.mk_mem_zipIdx_iff_getElem?.mpr hi, rfl⟩)
    exact ⟨List.mem_map.mpr ⟨(t, i), hmem, rfl⟩, hclosed' _ hmem⟩
  · rw [copyOf, hsm.start]
    rfl
  · intro p q hp hq heq
    exact hsm.inj p q _ (htouched p hp) (heq ▸ htouched q hq)

theorem CopyMap.singleton {n n' : ℕ} : CopyMap [(s, s')] s s' n n' := by
  have hcases : ∀ p q, [(s, s')].lookup p = some q → p = s := by
    intro p q hp
    rw [List.lookup_cons] at hp
    split at hp
    · next h => simpa using h
    · cases hp
  refine ⟨by simp, fun p q hp hps => absurd (hcases p q hp) hps, fun p p' q hp hp' => ?_⟩
  rw [hcases p q hp, hcases p' q hp']

/-- The edges that the copy of the chain and the single row add. -/
theorem mem_cloneEdges {m : ℕ → ℕ} {j : ℕ} {chain : List (Transition × ℕ)} (e : Edge ℕ Letter) :
    e ∈ chain.map (fun t => (⟨m t.1.source, t.1.label.letter, m t.1.dest⟩ : Edge ℕ Letter)) ++
        (chain.map fun t => (t.1.dest, m t.1.dest)).flatMap
          (fun c => [⟨c.1, some a, c.2⟩, ⟨c.2, none, j⟩]) ↔
      e ∈ copyEdges a m j (chain.map (·.1.edge)) := by
  rw [mem_copyEdges]
  simp only [List.mem_append, List.mem_map, List.mem_flatMap, List.mem_cons, List.not_mem_nil,
    or_false]
  constructor
  · rintro (⟨t, ht, rfl⟩ | ⟨c, ⟨t, ht, rfl⟩, h⟩)
    · exact ⟨_, ⟨t, ht, rfl⟩, .inl rfl⟩
    · exact ⟨_, ⟨t, ht, rfl⟩, .inr h⟩
  · rintro ⟨d, ⟨t, ht, rfl⟩, rfl | h⟩
    · exact .inl ⟨t, ht, rfl⟩
    · exact .inr ⟨_, ⟨t, ht, rfl⟩, h⟩

/-- Each destination of the chain beside that of its copy. -/
theorem cells_of_clone {m : ℕ → ℕ} {chain : List (Transition × ℕ)} {clone : List Transition}
    (hclone : clone.map Transition.edge =
      chain.map fun t => ⟨m t.1.source, t.1.label.letter, m t.1.dest⟩) :
    ((chain.map (·.1.dest)).zip clone).map (fun c => (c.1, c.2.dest)) =
      chain.map fun t => (t.1.dest, m t.1.dest) := by
  have hdests : clone.map (·.dest) = chain.map fun t => m t.1.dest := by
    have h := congrArg (List.map Edge.dst) hclone
    rw [List.map_map, List.map_map] at h
    exact h
  calc ((chain.map (·.1.dest)).zip clone).map (fun c => (c.1, c.2.dest))
      = (chain.map (·.1.dest)).zip (clone.map (·.dest)) := List.zip_map_right.symm
    _ = (chain.map (·.1.dest)).zip (chain.map fun t => m t.1.dest) := by rw [hdests]
    _ = chain.map fun t => (t.1.dest, m t.1.dest) := List.zip_map' ..

/-- The copy of a chain and its row read nothing new but `a`. -/
theorem letter_of_copyEdges {m : ℕ → ℕ} {j : ℕ} {C : List (Edge ℕ Letter)} {L : List Letter}
    {e : Edge ℕ Letter} {b : Letter} (hL : ∀ d ∈ C, ∀ b ∈ d.lab, b ∈ L)
    (he : e ∈ copyEdges a m j C) (hb : b ∈ e.lab) : b ∈ a :: L := by
  obtain ⟨d, hd, rfl | rfl | rfl⟩ := mem_copyEdges.mp he
  · exact List.mem_cons_of_mem _ (hL d hd b hb)
  · obtain rfl := Option.mem_some_iff.mp hb
    exact List.mem_cons_self
  · cases hb

/-- What is merged reads nothing new but `a`. -/
theorem letter_of_merged {m : ℕ → ℕ} {n n₂ : ℕ} {R C : List (Edge ℕ Letter)} {L : List Letter}
    {e : Edge ℕ Letter} {b : Letter} (hL : ∀ d ∈ R, ∀ b ∈ d.lab, b ∈ L) (hC : ∀ d ∈ C, d ∈ R)
    (he : e ∈ [⟨n, some a, n + 2⟩] ++ R ++ Piece.forkJoin s n (n + 1) (n + 2) rf n₂ ++
      copyEdges a m n₂ C) (hb : b ∈ e.lab) : b ∈ a :: L := by
  simp only [List.mem_append] at he
  obtain ((he | he) | he) | he := he
  · rw [List.mem_singleton.mp he] at hb
    obtain rfl := Option.mem_some_iff.mp hb
    exact List.mem_cons_self ..
  · exact List.mem_cons_of_mem _ (hL _ he b hb)
  · simp only [Piece.forkJoin, List.mem_cons, List.not_mem_nil, or_false] at he
    obtain rfl | rfl | rfl | rfl := he <;> cases hb
  · exact letter_of_copyEdges (fun d hd => hL d (hC d hd)) he hb

/-- The joints leave the common start and the ends of the operands. -/
theorem source_of_joints {l r lf j : ℕ} {t : Transition} (ht : t ∈ joints s l r lf rf j) :
    t.source = s ∨ t.source = lf ∨ t.source = rf := by
  simp only [joints, List.mem_cons, List.not_mem_nil, or_false] at ht
  obtain rfl | rfl | rfl | rfl := ht <;> simp

/-- The search through the left operand finds its one transition. -/
theorem reachable_left {n j : ℕ} (hn : n = g.states.length) (hsource : t1.source = n)
    (hdest : t1.dest = n + 2)
    (htrans : g'.transitions = g.transitions ++ t1 :: (ts ++ joints s n (n + 1) (n + 2) rf j))
    (hts : ∀ t ∈ ts, t.source = n + 1 ∨ n + 3 ≤ t.source) (hrf : rf = n + 1 ∨ n + 3 ≤ rf)
    (hs : s < n) (hg : g.Scoped) :
    calculateReachableTransitionsBetween g' n (n + 2) = [(t1, g.transitions.length)] := by
  rw [← hsource]
  refine calculateReachable_single ?_ (by omega) (by omega)
  refine Graph.out_eq_singleton htrans ?_ ?_
  · intro u hu
    have := hg u hu
    omega
  · intro u hu
    obtain hu | hu := List.mem_append.mp hu
    · have := hts u hu
      omega
    · have := source_of_joints hu
      omega

theorem Built.merge (ha : t1.label.letter = some a)
    (hl : Grows ((g.newState false false [] none).2.newState false false [] none).2 g₁ [t1])
    (hlen₁ : g₁.states.length = g.states.length + 3) (hsource : t1.source = g.states.length)
    (hdest : t1.dest = g.states.length + 2)
    (hr : Built g₁ g₂ ts (g.states.length + 1) rf r) (hs : s < g.states.length) (hg : g.Scoped) :
    ∃ ts', Built g
      (convertIncOrToExcOr false g.states.length (g.states.length + 1) (g.states.length + 2) rf
        g₂.states.length (joinOperands s g.states.length (g.states.length + 1)
          (g.states.length + 2) rf g₂))
      ts' s g₂.states.length (r.merge a) := by
  obtain ⟨hjoin, hlen₃⟩ := joinOperands_grows s g.states.length (g.states.length + 1)
    (g.states.length + 2) rf g₂
  set n := g.states.length with hn
  set n₂ := g₂.states.length with hn₂
  set g₃ := joinOperands s n (n + 1) (n + 2) rf g₂ with hg₃
  have hpiece := hr.piece
  have hown := hr.own
  rw [hlen₁] at hpiece hown
  have hle := hpiece.le
  have hgrow : Grows g g₃ ([t1] ++ ts ++ joints s n (n + 1) (n + 2) rf n₂) :=
    (((Grows.newState g).trans (.newState _)).trans hl).trans hr.grows |>.trans hjoin
  have htrans : g₃.transitions =
      g.transitions ++ t1 :: (ts ++ joints s n (n + 1) (n + 2) rf n₂) := by
    rw [hgrow.transitions]
    simp
  have hrf : rf = n + 1 ∨ n + 3 ≤ rf := hown.imp_right And.left
  have hts : ∀ t ∈ ts, t.source = n + 1 ∨ n + 3 ≤ t.source :=
    fun t ht => (hpiece.src _ (List.mem_map_of_mem ht)).imp_right And.left
  have hlhs := reachable_left hn hsource hdest htrans hts hrf hs hg
  -- the right operand is copied
  set rhs := calculateReachableTransitionsBetween g₃ (n + 1) rf with hrhs
  obtain ⟨clone, g₄, sm, heq, hgrow₄, hsm, -, hall, hclone⟩ :=
    createTransitionChainCopy_spec rhs
      (show CopyMap [(n + 1, n + 2)] (n + 1) (n + 2) (n₂ + 1) g₃.states.length from .singleton)
      (by omega) (by omega)
  obtain ⟨row, hgrow₅, hrow⟩ := fillRow_grows (j := n₂) ha
    ((rhs.map (·.1.dest)).zip clone) g₄
  set g' := fillRow t1 true n₂ ((rhs.map (·.1.dest)).zip clone) g₄ with hg'
  have hconvert : convertIncOrToExcOr false n (n + 1) (n + 2) rf n₂ g₃ = g' := by
    simp only [convertIncOrToExcOr, Bool.false_eq_true, if_false, hlhs, ← hrhs, fillGrid, hdest,
      heq, List.isEmpty_nil, ← hg']
  have hle₄ := hgrow₄.le
  have hle₅ := hgrow₅.le
  have hcopied : Copied (ts.map Transition.edge) (rhs.map (·.1.edge)) (n + 1) (n + 2) (n₂ + 1)
      g'.states.length (copyOf sm) := by
    refine copied_of_reachable hpiece hown ?_ ?_ (hsm.mono hle₅) hall
    · intro t ht htown htrf
      have hsrc : t.source = n + 1 ∨ n + 3 ≤ t.source := htown.imp_right And.left
      rw [htrans] at ht
      simp only [List.mem_append, List.mem_cons] at ht
      obtain ht | rfl | ht | ht := ht
      · have := hg t ht
        omega
      · omega
      · exact ht
      · have := source_of_joints ht
        omega
    · intro t ht
      rw [htrans]
      simp [ht]
  rw [cells_of_clone hclone] at hrow
  have hmerge := Piece.merge (a := a) hpiece hown hs hcopied (by omega)
  have hmem : ∀ e, e ∈ ([t1] ++ ts ++ joints s n (n + 1) (n + 2) rf n₂ ++ clone ++ row).map
      Transition.edge ↔ e ∈ [⟨n, some a, n + 2⟩] ++ ts.map Transition.edge ++
        Piece.forkJoin s n (n + 1) (n + 2) rf n₂ ++
          copyEdges a (copyOf sm) n₂ (rhs.map (·.1.edge)) := by
    intro e
    have ht1 : t1.edge = ⟨n, some a, n + 2⟩ := by rw [Transition.edge, hsource, ha, hdest]
    have hadded : (clone ++ row).map Transition.edge = clone.map Transition.edge ++ row.map Transition.edge :=
      List.map_append
    rw [List.append_assoc _ clone row, List.map_append, hadded, hclone, hrow, List.mem_append,
      mem_cloneEdges, List.mem_append]
    simp only [List.map_append, List.map_cons, List.map_nil, ht1]
    rfl
  rw [hconvert]
  refine ⟨_, (hgrow.trans hgrow₄).trans hgrow₅, ?_, hmerge.congr hmem,
    .inr ⟨by omega, by omega⟩, ?_⟩
  · intro t ht b hb
    have he := (hmem t.edge).mp (List.mem_map_of_mem ht)
    have hletters : ∀ e ∈ ts.map Transition.edge, ∀ b ∈ e.lab, b ∈ r.letters := by
      intro e he b hb
      obtain ⟨u, hu, rfl⟩ := List.mem_map.mp he
      exact hr.letters u hu b hb
    exact letter_of_merged hletters hcopied.sub he hb
  · simp only [Runs.merge, Bool.false_eq_true, false_iff]
    omega

end Merge

end Tesla.Automata
