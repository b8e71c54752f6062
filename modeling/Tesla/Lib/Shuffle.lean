/-
# `Tesla.Lib.Shuffle` — either, or both, in any order

`inclusive L M` is the language of two activities of which at least one is
completed: shuffles of a word of the one with a prefix of a word of the other.

For an activity of one letter `a` it is realised by a fork and a join with a copy
of the other piece (`Piece.merge`): the letter takes a vertex to its copy, and
every copied vertex may join.

    ls ──a──▶ lf = m rs           the copy, entered at its start
              rs ──▶ ⋯ p ⋯ ──▶ rf
                       │ a
                       ▼
                      m p ──▶ join
-/
import Tesla.Lib.Pieces

namespace Tesla.Lib

open Computability

variable {α : Type*} {a : α} {u v w : List α} {L M N : Language α}

inductive Shuffle : List α → List α → List α → Prop
  | nil : Shuffle [] [] []
  | left (a : α) {u v w : List α} (h : Shuffle u v w) : Shuffle (a :: u) v (a :: w)
  | right (a : α) {u v w : List α} (h : Shuffle u v w) : Shuffle u (a :: v) (a :: w)

theorem shuffle_nil_left : Shuffle [] v w ↔ w = v := by
  constructor
  · intro h
    induction v generalizing w with
    | nil => cases h; rfl
    | cons a v ih =>
      cases h with
      | right a h => rw [ih h]
  · rintro rfl
    induction w with
    | nil => exact .nil
    | cons a w ih => exact .right a ih

/-- Shuffling in one letter is inserting it. -/
theorem shuffle_singleton : Shuffle [a] v w ↔ ∃ v₁ v₂, v = v₁ ++ v₂ ∧ w = v₁ ++ a :: v₂ := by
  constructor
  · intro h
    induction v generalizing w with
    | nil =>
      cases h with
      | left a h => exact ⟨[], [], rfl, by rw [shuffle_nil_left.mp h]; rfl⟩
    | cons b v ih =>
      cases h with
      | left a h => exact ⟨[], b :: v, rfl, by rw [shuffle_nil_left.mp h]; rfl⟩
      | right b h =>
        obtain ⟨v₁, v₂, rfl, rfl⟩ := ih h
        exact ⟨b :: v₁, v₂, rfl, rfl⟩
  · rintro ⟨v₁, v₂, rfl, rfl⟩
    induction v₁ with
    | nil => exact .left a (shuffle_nil_left.mpr rfl)
    | cons b v₁ ih => exact .right b ih

def prefixes (L : Language α) : Language α := {u | ∃ v, u ++ v ∈ L}

def inclusive (L M : Language α) : Language α :=
  {w | ∃ u v, Shuffle u v w ∧ ((u ∈ L ∧ v ∈ prefixes M) ∨ (u ∈ prefixes L ∧ v ∈ M))}

/-- A word of `L` with one `a` put into it. -/
def inserted (a : α) (L : Language α) : Language α := {w | ∃ v ∈ L, Shuffle [a] v w}

theorem le_prefixes : L ≤ prefixes L := by
  intro w hw
  exact ⟨[], by rwa [List.append_nil]⟩

theorem inserted_mono (h : L ≤ M) : inserted a L ≤ inserted a M := by
  rintro w ⟨v, hv, hw⟩
  exact ⟨v, h hv, hw⟩

/-- For one letter: insert it into a prefix, or leave it out. -/
theorem inclusive_singleton : inclusive {[a]} M = inserted a (prefixes M) + M := by
  ext w
  constructor
  · rintro ⟨u, v, hsh, ⟨rfl, hv⟩ | ⟨⟨x, hux⟩, hv⟩⟩
    · exact .inl ⟨v, hv, hsh⟩
    · obtain ⟨rfl, _⟩ | ⟨rfl, _⟩ := List.append_eq_singleton_iff.mp hux
      · rw [shuffle_nil_left.mp hsh]
        exact .inr hv
      · exact .inl ⟨v, le_prefixes hv, hsh⟩
  · rintro (⟨v, hv, hsh⟩ | hw)
    · exact ⟨[a], v, hsh, .inl ⟨rfl, hv⟩⟩
    · exact ⟨[], w, shuffle_nil_left.mpr rfl, .inr ⟨⟨[a], rfl⟩, hw⟩⟩

theorem inserted_mul_le : inserted a L * N ≤ inserted a (L * N) := by
  intro w hw
  obtain ⟨x, ⟨v, hv, hsh⟩, y, hy, rfl⟩ := Language.mem_mul.mp hw
  obtain ⟨v₁, v₂, rfl, rfl⟩ := shuffle_singleton.mp hsh
  refine ⟨v₁ ++ v₂ ++ y, Language.append_mem_mul hv hy, shuffle_singleton.mpr ⟨v₁, v₂ ++ y, ?_, ?_⟩⟩
  · simp
  · simp

theorem mul_singleton_le_inserted : L * {[a]} ≤ inserted a L := by
  intro w hw
  obtain ⟨v, hv, x, rfl, rfl⟩ := Language.mem_mul.mp hw
  exact ⟨v, hv, shuffle_singleton.mpr ⟨v, [], by simp, rfl⟩⟩

/-! ## The copy of a piece -/

/-- The vertices that edges `C` and their start have. -/
def Touched (C : List (Edge ℕ α)) (s p : ℕ) : Prop := p = s ∨ ∃ e ∈ C, e.src = p ∨ e.dst = p

/-- `C` has the edges of `E` that are within reach of `s`, and `m` copies their
vertices to new ones, except `s`, which becomes `s'`. -/
structure Copied (E C : List (Edge ℕ α)) (s s' n n' : ℕ) (m : ℕ → ℕ) : Prop where
  sub : ∀ e ∈ C, e ∈ E
  reach : ∀ w p, Walk E s w p → Walk C s w p
  start : m s = s'
  fresh : ∀ p, Touched C s p → p ≠ s → n ≤ m p ∧ m p < n'
  inj : ∀ p q, Touched C s p → Touched C s q → m p = m q → p = q

/-- The edges of the copy, those labelled `a` into it, and those out of it. -/
def copyEdges (a : α) (m : ℕ → ℕ) (j : ℕ) (C : List (Edge ℕ α)) : List (Edge ℕ α) :=
  C.flatMap fun e => [⟨m e.src, e.lab, m e.dst⟩, ⟨e.dst, some a, m e.dst⟩, ⟨m e.dst, none, j⟩]

theorem mem_copyEdges {m : ℕ → ℕ} {j : ℕ} {C : List (Edge ℕ α)} {e : Edge ℕ α} :
    e ∈ copyEdges a m j C ↔ ∃ d ∈ C, e = ⟨m d.src, d.lab, m d.dst⟩ ∨
      e = ⟨d.dst, some a, m d.dst⟩ ∨ e = ⟨m d.dst, none, j⟩ := by
  simp [copyEdges]

namespace Piece

section Merge

variable {n n₂ n' s rf : ℕ} {E C : List (Edge ℕ α)} {A K : Language α} {m : ℕ → ℕ}

/-- What is read on the way to the copy of a vertex. -/
def copyLabel (s : ℕ) (E C : List (Edge ℕ α)) (a : α) (m : ℕ → ℕ) (p : ℕ) : Language α :=
  {w | ∃ q, Touched C s q ∧ m q = p ∧ w ∈ inserted a (walks E s q)}

open Classical in
/-- What is read on the way to each vertex. -/
noncomputable def mergeLabel (n n₂ s : ℕ) (E C : List (Edge ℕ α)) (A : Language α) (a : α)
    (m : ℕ → ℕ) (p : ℕ) : Language α :=
  if p = s ∨ p = n then 1
  else if p = n₂ then inclusive {[a]} A
  else if Own (n + 1) (n + 3) n₂ p then walks E (n + 1) p
  else copyLabel (n + 1) E C a m p

variable (h : Piece (n + 3) n₂ E (n + 1) rf A K) (hrf : Own (n + 1) (n + 3) n₂ rf) (hs : s < n)
  (hm : Copied E C (n + 1) (n + 2) (n₂ + 1) n' m)

include h in
/-- Every vertex within reach is on the way to the end, so it has read a prefix. -/
theorem inserted_le_inclusive (p : ℕ) :
    inserted a (walks E (n + 1) p) ≤ inclusive {[a]} A := by
  rw [inclusive_singleton]
  refine le_trans (inserted_mono ?_) le_sup_left
  intro w hw
  obtain ⟨v, hv⟩ := h.trim w p hw
  refine ⟨v, ?_⟩
  rw [← h.accept]
  exact Walk.append hw hv

include hm in
theorem copy_bounds {q : ℕ} (hq : Touched C (n + 1) q) :
    m q = n + 2 ∧ q = n + 1 ∨ n₂ < m q ∧ m q < n' := by
  by_cases hqs : q = n + 1
  · exact .inl ⟨hqs ▸ hm.start, hqs⟩
  · exact .inr (hm.fresh q hq hqs)

include hm in
/-- From the copy of every vertex within reach there is a way out. -/
theorem copy_joins {p : ℕ} {E' : List (Edge ℕ α)} {u : List α} (hw : Walk C (n + 1) u p)
    (hjoin : ⟨n + 2, none, n₂⟩ ∈ E') (hcopy : ∀ e ∈ copyEdges a m n₂ C, e ∈ E') :
    ⟨m p, none, n₂⟩ ∈ E' := by
  obtain ⟨rfl, _⟩ | ⟨e, he, rfl⟩ := hw.eq_or_entered
  · rwa [hm.start]
  · exact hcopy _ (mem_copyEdges.mpr ⟨e, he, .inr (.inr rfl)⟩)

include hm in
/-- Inserting `a` into what a piece reads: up to some vertex in the piece itself,
then in the copy. -/
theorem walk_inserted {p q : ℕ} {E' : List (Edge ℕ α)} {v₁ v₂ : List α}
    (h₁ : Walk C (n + 1) v₁ p) (h₂ : Walk C p v₂ q)
    (hbase : ∀ e ∈ [⟨n, some a, n + 2⟩] ++ E ++ forkJoin s n (n + 1) (n + 2) rf n₂, e ∈ E')
    (hcopy : ∀ e ∈ copyEdges a m n₂ C, e ∈ E') : Walk E' s (v₁ ++ a :: v₂) n₂ := by
  have hgo : ∀ e ∈ forkJoin s n (n + 1) (n + 2) rf n₂, e ∈ E' :=
    fun e he => hbase e (List.mem_append_right _ he)
  have htail : Walk E' (m p) v₂ n₂ := by
    have hw : Walk E' (m p) v₂ (m q) :=
      h₂.map fun e he => hcopy _ (mem_copyEdges.mpr ⟨e, he, .inl rfl⟩)
    exact hw.append_eps (copy_joins hm (h₁.append h₂) (hgo _ (by simp [forkJoin])) hcopy)
  obtain ⟨rfl, rfl⟩ | ⟨e, he, rfl⟩ := h₁.eq_or_entered
  · rw [hm.start] at htail
    have hfirst : Walk E' n [a] (n + 2) := .letter (hbase _ (by simp))
    exact .eps_append (hgo ⟨s, none, n⟩ (by simp [forkJoin])) (hfirst.append htail)
  · have hfirst : Walk E' (n + 1) v₁ e.dst :=
      h₁.mono fun d hd => hbase d (by simp [hm.sub d hd])
    have hcross : Walk E' e.dst [a] (m e.dst) :=
      .letter (hcopy _ (mem_copyEdges.mpr ⟨e, he, .inr (.inl rfl)⟩))
    exact .eps_append (hgo ⟨s, none, n + 1⟩ (by simp [forkJoin]))
      (hfirst.append (hcross.append htail))

include h hs

theorem mergeLabel_own {p : ℕ} (hp : Own (n + 1) (n + 3) n₂ p) :
    mergeLabel n n₂ s E C A a m p = walks E (n + 1) p := by
  have hle := h.le
  have hne : ¬ (p = s ∨ p = n) ∧ p ≠ n₂ := by
    obtain rfl | hp := hp <;> omega
  rw [mergeLabel, if_neg hne.1, if_neg hne.2, if_pos hp]

theorem mergeLabel_join : mergeLabel n n₂ s E C A a m n₂ = inclusive {[a]} A := by
  have hle := h.le
  rw [mergeLabel, if_neg (by omega), if_pos rfl]

include hm

theorem mergeLabel_copy {q : ℕ} (hq : Touched C (n + 1) q) :
    mergeLabel n n₂ s E C A a m (m q) = inserted a (walks E (n + 1) q) := by
  have hle := h.le
  have hb := copy_bounds hm hq
  have hown : ¬ Own (n + 1) (n + 3) n₂ (m q) := by
    rintro (h | h) <;> omega
  rw [mergeLabel, if_neg (by omega), if_neg (by omega), if_neg hown]
  ext w
  constructor
  · rintro ⟨q', hq', heq, hw⟩
    rwa [hm.inj q' q hq' hq heq] at hw
  · intro hw
    exact ⟨q, hq, rfl, hw⟩

include hrf

theorem merge_closed :
    Closed ([⟨n, some a, n + 2⟩] ++ E ++ forkJoin s n (n + 1) (n + 2) rf n₂ ++ copyEdges a m n₂ C)
      (mergeLabel n n₂ s E C A a m) := by
  have hdst := h.dst_own hrf
  have htouch : Touched C (n + 1) (n + 1) := .inl rfl
  have hlf : mergeLabel n n₂ s E C A a m (n + 2) = inserted a (walks E (n + 1) (n + 1)) := by
    rw [← hm.start, mergeLabel_copy h hs hm htouch]
  have hsl : mergeLabel n n₂ s E C A a m s = 1 := by rw [mergeLabel, if_pos (.inl rfl)]
  have hnl : mergeLabel n n₂ s E C A a m n = 1 := by rw [mergeLabel, if_pos (.inr rfl)]
  refine closed_append.mpr ⟨closed_append.mpr ⟨closed_append.mpr ⟨?_, ?_⟩, ?_⟩, ?_⟩
  · intro e he
    obtain rfl := List.mem_singleton.mp he
    rw [hnl, hlf]
    calc 1 * letterOf (some a) ≤ walks E (n + 1) (n + 1) * {[a]} := mul_le_mul_left one_le_walks _
      _ ≤ inserted a (walks E (n + 1) (n + 1)) := mul_singleton_le_inserted
  · intro e he
    rw [mergeLabel_own h hs (h.src e he), mergeLabel_own h hs (hdst e he)]
    exact walks_mul_letterOf_le he
  · simp only [Closed, forkJoin, List.forall_mem_cons, List.not_mem_nil, false_implies,
      implies_true, and_true, letterOf, mul_one, hsl, hnl, hlf, mergeLabel_join h hs,
      mergeLabel_own h hs (.inl rfl), mergeLabel_own h hs hrf, h.accept]
    refine ⟨le_rfl, one_le_walks, inserted_le_inclusive h _, ?_⟩
    rw [inclusive_singleton]
    exact le_sup_right
  · intro e he
    obtain ⟨d, hd, rfl | rfl | rfl⟩ := mem_copyEdges.mp he
    · have hds : Touched C (n + 1) d.src := .inr ⟨d, hd, .inl rfl⟩
      have hdd : Touched C (n + 1) d.dst := .inr ⟨d, hd, .inr rfl⟩
      rw [mergeLabel_copy h hs hm hds, mergeLabel_copy h hs hm hdd]
      exact inserted_mul_le.trans (inserted_mono (walks_mul_letterOf_le (hm.sub d hd)))
    · have hdd : Touched C (n + 1) d.dst := .inr ⟨d, hd, .inr rfl⟩
      rw [mergeLabel_own h hs (hdst d (hm.sub d hd)), mergeLabel_copy h hs hm hdd]
      exact mul_singleton_le_inserted
    · have hdd : Touched C (n + 1) d.dst := .inr ⟨d, hd, .inr rfl⟩
      rw [mergeLabel_copy h hs hm hdd, mergeLabel_join h hs]
      simpa [letterOf] using inserted_le_inclusive h d.dst

omit hm in
/-- Without the copy, the one or the other to the end. -/
theorem merge_choice :
    Piece n (n₂ + 1) ([⟨n, some a, n + 2⟩] ++ E ++ forkJoin s n (n + 1) (n + 2) rf n₂) s n₂
      (letterOf (some a) + A) 1 := by
  have hedge : Piece (n + 2) (n + 3) [⟨n, some a, n + 2⟩] n (n + 2) (letterOf (some a)) 1 :=
    edge (by omega) (by omega) (by omega) (some a)
  exact choice hedge (.inr ⟨le_rfl, by omega⟩) h hrf hs

omit hs in
/-- The copy and its row leave the vertices of the merged piece, and lead to them. -/
theorem copyEdges_own (hn : n₂ + 1 ≤ n') : ∀ e ∈ copyEdges a m n₂ C,
    (Own s n n' e.src ∧ e.src ≠ n₂) ∧ (Own s n n' e.dst ∨ e.dst = n₂) := by
  have hle := h.le
  have hcopy : ∀ q, Touched C (n + 1) q → Own s n n' (m q) ∧ m q ≠ n₂ := by
    intro q hq
    have hb := copy_bounds hm hq
    exact ⟨.inr ⟨by omega, by omega⟩, by omega⟩
  have hdst : ∀ e ∈ C, Own s n n' e.dst ∧ e.dst ≠ n₂ := by
    intro e he
    have hown : Own (n + 1) (n + 3) n₂ e.dst := h.dst_own hrf e (hm.sub e he)
    obtain heq | hb := hown
    · exact ⟨.inr ⟨by omega, by omega⟩, by omega⟩
    · exact ⟨.inr ⟨by omega, by omega⟩, by omega⟩
  intro e he
  obtain ⟨d, hd, hcases⟩ := mem_copyEdges.mp he
  have hds := hcopy d.src (.inr ⟨d, hd, .inl rfl⟩)
  have hdd := hcopy d.dst (.inr ⟨d, hd, .inr rfl⟩)
  obtain rfl | rfl | rfl := hcases
  · exact ⟨hds, .inl hdd.1⟩
  · exact ⟨hdst d hd, .inl hdd.1⟩
  · exact ⟨hdd, .inr rfl⟩

/-- From all that the labelling reaches there is a way out. -/
theorem merge_trim {p : ℕ} (hp : w ∈ mergeLabel n n₂ s E C A a m p) :
    ∃ v, Walk ([⟨n, some a, n + 2⟩] ++ E ++ forkJoin s n (n + 1) (n + 2) rf n₂ ++
      copyEdges a m n₂ C) p v n₂ := by
  have hchoice := merge_choice (a := a) h hrf hs
  have hbase : ∀ e ∈ [⟨n, some a, n + 2⟩] ++ E ++ forkJoin s n (n + 1) (n + 2) rf n₂,
      e ∈ [⟨n, some a, n + 2⟩] ++ E ++ forkJoin s n (n + 1) (n + 2) rf n₂ ++ copyEdges a m n₂ C :=
    fun e he => List.mem_append_left _ he
  rw [mergeLabel] at hp
  split at hp
  · next heq =>
    obtain rfl | rfl := heq
    · obtain ⟨v, hv⟩ := hchoice.trim [] p (.nil p)
      exact ⟨v, hv.mono hbase⟩
    · have hgo : Walk ([⟨p, some a, p + 2⟩] ++ E ++ forkJoin s p (p + 1) (p + 2) rf n₂) s [] p :=
        .eps (by simp [forkJoin])
      obtain ⟨v, hv⟩ := hchoice.trim [] p hgo
      exact ⟨v, hv.mono hbase⟩
  split at hp
  · next heq => exact ⟨[], heq ▸ .nil p⟩
  split at hp
  · obtain ⟨v, hv⟩ := h.trim w p hp
    have hv' : Walk ([⟨n, some a, n + 2⟩] ++ E ++ forkJoin s n (n + 1) (n + 2) rf n₂) p v rf :=
      hv.mono fun e he => by simp [he]
    exact ⟨v, (hv'.append_eps (by simp [forkJoin])).mono hbase⟩
  · obtain ⟨q, hq, rfl, v, hv, _⟩ := hp
    have hjoins := copy_joins hm (hm.reach v q hv) (hbase _ (by simp [forkJoin]))
      fun e he => List.mem_append_right _ he
    exact ⟨[], .eps hjoins⟩

/-- One letter and a piece, at least one of them to the end. -/
theorem merge (hn : n₂ + 1 ≤ n') :
    Piece n n'
      ([⟨n, some a, n + 2⟩] ++ E ++ forkJoin s n (n + 1) (n + 2) rf n₂ ++ copyEdges a m n₂ C)
      s n₂ (inclusive {[a]} A) 1 := by
  have hle := h.le
  have hchoice := merge_choice (a := a) h hrf hs
  have hR := merge_closed (a := a) h hrf hs hm
  have hcopy := copyEdges_own (a := a) (s := s) h hrf hm hn
  have hone : (1 : Language α) ≤ mergeLabel n n₂ s E C A a m s := by
    rw [mergeLabel, if_pos (.inl rfl)]
  have hown : ∀ p, Own s n (n₂ + 1) p → Own s n n' p := by
    intro p hp
    exact hp.imp_right fun hp => ⟨hp.1, by omega⟩
  have hbase : ∀ e ∈ [⟨n, some a, n + 2⟩] ++ E ++ forkJoin s n (n + 1) (n + 2) rf n₂,
      e ∈ [⟨n, some a, n + 2⟩] ++ E ++ forkJoin s n (n + 1) (n + 2) rf n₂ ++ copyEdges a m n₂ C :=
    fun e he => List.mem_append_left _ he
  have hsub : ∀ e ∈ copyEdges a m n₂ C,
      e ∈ [⟨n, some a, n + 2⟩] ++ E ++ forkJoin s n (n + 1) (n + 2) rf n₂ ++ copyEdges a m n₂ C :=
    fun e he => List.mem_append_right _ he
  refine ⟨by omega, hs, ?_, ?_, ?_, fun hj => by omega, ?_, ?_, ?_⟩
  · rw [List.forall_mem_append]
    exact ⟨fun e he => hown _ (hchoice.src e he), fun e he => (hcopy e he).1.1⟩
  · rw [List.forall_mem_append]
    exact ⟨fun e he => (hchoice.dst e he).imp_left (hown _), fun e he => (hcopy e he).2⟩
  · rw [List.forall_mem_append]
    exact ⟨hchoice.exit, fun e he => (hcopy e he).1.2⟩
  · refine le_antisymm ?_ ?_
    · exact (hR.walks_le_of_one_le hone).trans (mergeLabel_join h hs).le
    · rw [inclusive_singleton, ← h.accept]
      rintro w (⟨v, ⟨x, hx⟩, hsh⟩ | hw)
      · obtain ⟨v₁, v₂, rfl, rfl⟩ := shuffle_singleton.mp hsh
        obtain ⟨q, hq, _⟩ := (hm.reach _ _ hx).split
        obtain ⟨p, h₁, h₂⟩ := hq.split
        exact walk_inserted hm h₁ h₂ hbase hsub
      · have hright : w ∈ walks E (n + 1) rf := hw
        rw [h.accept] at hright
        have hmem : w ∈ letterOf (some a) + A := .inr hright
        rw [← hchoice.accept] at hmem
        exact Walk.mono hbase hmem
  · refine le_antisymm ?_ one_le_walks
    refine (hR.walks_le_of_one_le hone).trans ?_
    rw [mergeLabel, if_pos (.inl rfl)]
  · intro w p hw
    exact merge_trim h hrf hs hm (hR.walks_le_of_one_le hone hw)

end Merge

end Piece

end Tesla.Lib
