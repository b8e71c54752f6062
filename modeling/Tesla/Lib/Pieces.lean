/-
# `Tesla.Lib.Pieces` — graphs assembled from pieces that share their ends

A builder numbers its vertices as it makes them.  A *piece* is what one call of
it adds: edges among the vertex `s` it was called with, the vertices `n ≤ p < n'`
made meanwhile, and a final vertex `f` that nothing leaves.  Two languages say
all that a caller can observe:

    A   read from s to f
    K   read from s back to s

`K` is there because the piece does not own `s`: whoever adds an edge at `s`
also reaches it after every word of `K`.

    nil, letter        the atoms
    series             one piece after the other
    skip, loop         an edge from s to f; an edge back to s
    choice             two pieces between a fork and a join
-/
import Tesla.Lib.Walks
import Mathlib.Algebra.Order.Kleene

namespace Tesla.Lib

open Computability

/-- The vertices of a piece other than its final one. -/
def Own (s n n' p : ℕ) : Prop := p = s ∨ n ≤ p ∧ p < n'

structure Piece {α : Type*} (n n' : ℕ) (E : List (Edge ℕ α)) (s f : ℕ) (A K : Language α) :
    Prop where
  le : n ≤ n'
  lt : s < n
  src : ∀ e ∈ E, Own s n n' e.src
  dst : ∀ e ∈ E, Own s n n' e.dst ∨ e.dst = f
  exit : ∀ e ∈ E, e.src ≠ f
  idle : f = s → E = []
  accept : walks E s f = A
  back : walks E s s = K
  trim : ∀ w p, Walk E s w p → ∃ v, Walk E p v f

variable {α : Type*} {n n₁ n' s c f p : ℕ} {E E₁ E₂ : List (Edge ℕ α)} {A K A₁ K₁ A₂ K₂ : Language α}

namespace Piece

/-- A piece that ends in a state of its own stays there. -/
theorem dst_own (h : Piece n n' E s f A K) (hf : Own s n n' f) : ∀ e ∈ E, Own s n n' e.dst := by
  intro e he
  obtain hdst | hdst := h.dst e he
  · exact hdst
  · exact hdst ▸ hf

theorem congr (h : Piece n n' E s f A K) (hE : ∀ e, e ∈ E₁ ↔ e ∈ E) : Piece n n' E₁ s f A K := by
  have hwalks : ∀ p q, walks E₁ p q = walks E p q := by
    intro p q
    exact le_antisymm (walks_mono fun e => (hE e).mp) (walks_mono fun e => (hE e).mpr)
  refine ⟨h.le, h.lt, fun e he => h.src e ((hE e).mp he), fun e he => h.dst e ((hE e).mp he),
    fun e he => h.exit e ((hE e).mp he), ?_, (hwalks s f).trans h.accept,
    (hwalks s s).trans h.back, ?_⟩
  · intro hf
    have hnil := h.idle hf
    subst hnil
    exact List.eq_nil_iff_forall_not_mem.mpr fun e he => List.not_mem_nil ((hE e).mp he)
  · intro w p hw
    obtain ⟨v, hv⟩ := h.trim w p (hw.mono fun e => (hE e).mp)
    exact ⟨v, hv.mono fun e => (hE e).mpr⟩

theorem one_le_back (h : Piece n n' E s f A K) : 1 ≤ K := h.back ▸ one_le_walks

theorem back_mul_accept (h : Piece n n' E s f A K) : K * A = A :=
  h.back ▸ h.accept ▸ walks_self_mul s f

/-- What a piece that did nothing reads. -/
theorem of_idle (h : Piece n n' E s s A K) : E = [] ∧ A = 1 ∧ K = 1 := by
  have hnil := h.idle rfl
  subst hnil
  have hone : walks ([] : List (Edge ℕ α)) s s = 1 :=
    walks_eq_one_of_no_exit fun e he => absurd he List.not_mem_nil
  exact ⟨rfl, h.accept.symm.trans hone, h.back.symm.trans hone⟩

theorem own_lt (h : Piece n n' E s f A K) (hp : Own s n n' p) : p < n' := by
  obtain rfl | hp := hp
  · exact lt_of_lt_of_le h.lt h.le
  · exact hp.2

/-! ## Atoms -/

theorem nil (hs : s < n) : Piece n n ([] : List (Edge ℕ α)) s s 1 1 := by
  have hone : walks ([] : List (Edge ℕ α)) s s = 1 :=
    walks_eq_one_of_no_exit fun e he => absurd he List.not_mem_nil
  refine ⟨le_rfl, hs, by simp, by simp, by simp, fun _ => rfl, hone, hone, ?_⟩
  intro w p hw
  cases hw with
  | nil => exact ⟨[], .nil _⟩
  | cons he _ => exact absurd he List.not_mem_nil

/-- One edge, to a final vertex that may be anywhere. -/
theorem edge (hle : n ≤ n') (hs : s < n) (hf : f ≠ s) (o : Option α) :
    Piece n n' [⟨s, o, f⟩] s f (letterOf o) 1 := by
  have hexit : ∀ e ∈ [(⟨s, o, f⟩ : Edge ℕ α)], e.src ≠ f := by simpa using hf.symm
  have hR : Closed [⟨s, o, f⟩] fun p => if p = f then letterOf o else 1 := by
    intro e he
    obtain rfl := List.mem_singleton.mp he
    simp [hf.symm]
  have hone : (1 : Language α) ≤ if s = f then letterOf o else 1 := by simp [hf.symm]
  refine ⟨hle, hs, by simp [Own], by simp, hexit, fun h => absurd h hf, ?_, ?_, ?_⟩
  · refine le_antisymm ?_ ?_
    · have h := hR.walks_le_of_one_le (q := f) hone
      simpa using h
    · intro w hw
      rw [mem_letterOf.mp hw]
      exact Walk.edge (List.mem_singleton.mpr rfl)
  · refine le_antisymm ?_ one_le_walks
    have h := hR.walks_le_of_one_le (q := s) hone
    simpa [hf.symm] using h
  · intro w p hw
    obtain ⟨rfl, _⟩ | ⟨e, he, rfl⟩ := hw.eq_or_entered
    · exact ⟨_, .edge (List.mem_singleton.mpr rfl)⟩
    · obtain rfl := List.mem_singleton.mp he
      exact ⟨[], .nil _⟩

/-! ## An edge from the start to the end, an edge back to the start -/

theorem skip (h : Piece n n' E s f A K) (hf : f ≠ s) :
    Piece n n' (⟨s, none, f⟩ :: E) s f (K + A) K := by
  have hsub : ∀ e ∈ E, e ∈ (⟨s, none, f⟩ : Edge ℕ α) :: E := fun e => List.mem_cons_of_mem _
  have hR : Closed (⟨s, none, f⟩ :: E) fun p => if p = f then K + A else walks E s p := by
    intro e he
    obtain rfl | he := List.mem_cons.mp he
    · simp only [if_neg hf.symm, if_true, letterOf, mul_one, h.back]
      exact le_sup_left
    · have hle := walks_mul_letterOf_le (p := s) he
      simp only [if_neg (h.exit e he)]
      split
      · next heq =>
        rw [heq, h.accept] at hle
        exact hle.trans le_sup_right
      · exact hle
  have hone : (1 : Language α) ≤ if s = f then K + A else walks E s s := by
    rw [if_neg hf.symm]
    exact one_le_walks
  refine ⟨h.le, h.lt, ?_, ?_, ?_, fun hfs => absurd hfs hf, ?_, ?_, ?_⟩
  · simpa [Own] using h.src
  · simpa using h.dst
  · simpa using ⟨hf.symm, h.exit⟩
  · refine le_antisymm ?_ ?_
    · have hle := hR.walks_le_of_one_le (q := f) hone
      simpa using hle
    · rintro w (hw | hw)
      · rw [← h.back] at hw
        exact (Walk.mono hsub hw).append_eps (List.mem_cons_self ..)
      · rw [← h.accept] at hw
        exact Walk.mono hsub hw
  · rw [← h.back]
    refine le_antisymm ?_ (walks_mono hsub)
    have hle := hR.walks_le_of_one_le (q := s) hone
    simpa only [if_neg hf.symm] using hle
  · intro w p hw
    by_cases hp : p = f
    · exact ⟨[], hp ▸ .nil p⟩
    · have hle := hR.walks_le_of_one_le (q := p) hone hw
      rw [if_neg hp] at hle
      obtain ⟨v, hv⟩ := h.trim w p hle
      exact ⟨v, hv.mono hsub⟩

/-- An edge back to the start repeats whatever led to it. -/
theorem walks_cons_back (q : ℕ) :
    walks (⟨c, none, s⟩ :: E) s q = (walks E s c)∗ * walks E s q := by
  have hsub : ∀ e ∈ E, e ∈ (⟨c, none, s⟩ : Edge ℕ α) :: E := fun e => List.mem_cons_of_mem _
  refine le_antisymm ?_ ?_
  · have hR : Closed (⟨c, none, s⟩ :: E) fun p => (walks E s c)∗ * walks E s p := by
      intro e he
      obtain rfl | he := List.mem_cons.mp he
      · simp only [letterOf, mul_one]
        calc (walks E s c)∗ * walks E s c ≤ (walks E s c)∗ := kstar_mul_le_kstar
          _ = (walks E s c)∗ * 1 := (mul_one _).symm
          _ ≤ (walks E s c)∗ * walks E s s := mul_le_mul_right one_le_walks _
      · exact closed_walks _ s e he
    refine hR.walks_le_of_one_le ?_
    calc (1 : Language α) = 1 * 1 := (mul_one 1).symm
      _ ≤ (walks E s c)∗ * walks E s s := mul_le_mul' one_le_kstar one_le_walks
  · have hloop : walks E s c ≤ walks (⟨c, none, s⟩ :: E) s s := by
      intro w hw
      exact (Walk.mono hsub hw).append_eps (List.mem_cons_self ..)
    calc (walks E s c)∗ * walks E s q
        ≤ (walks (⟨c, none, s⟩ :: E) s s)∗ * walks (⟨c, none, s⟩ :: E) s q :=
          mul_le_mul' (kstar_mono hloop) (walks_mono hsub)
      _ ≤ walks (⟨c, none, s⟩ :: E) s q :=
          kstar_mul_le_self walks_mul_walks_le

theorem loop (h : Piece n n' E s f A K) (hf : f ≠ s) (hc : Own s n n' c) (hcf : c ≠ f) :
    Piece n n' (⟨c, none, s⟩ :: E) s f ((walks E s c)∗ * A) ((walks E s c)∗ * K) := by
  refine ⟨h.le, h.lt, ?_, ?_, ?_, fun hfs => absurd hfs hf, ?_, ?_, ?_⟩
  · simpa using ⟨hc, h.src⟩
  · simpa [Own] using h.dst
  · simpa using ⟨hcf, h.exit⟩
  · rw [walks_cons_back, h.accept]
  · rw [walks_cons_back, h.back]
  · intro w p hw
    have hmem : w ∈ (walks E s c)∗ * walks E s p := (walks_cons_back p).le hw
    obtain ⟨_, _, w', hw', _⟩ := Language.mem_mul.mp hmem
    obtain ⟨v, hv⟩ := h.trim w' p hw'
    exact ⟨v, hv.mono fun e => List.mem_cons_of_mem _⟩

/-! ## One piece after the other -/

theorem weaken (h : Piece n₁ n' E s f A K) (hn : n ≤ n₁) (hs : s < n) :
    Piece n n' E s f A K := by
  have hown : ∀ p, Own s n₁ n' p → Own s n n' p := by
    intro p hp
    exact hp.imp_right fun hp => ⟨hn.trans hp.1, hp.2⟩
  exact ⟨hn.trans h.le, hs, fun e he => hown _ (h.src e he),
    fun e he => (h.dst e he).imp_left (hown _), h.exit, h.idle, h.accept, h.back, h.trim⟩

section Series

variable (h₁ : Piece n n₁ E₁ s c A₁ K₁) (h₂ : Piece n₁ n' E₂ c f A₂ K₂) (hc : Own s n n₁ c)
  (hf : f = c ∨ ¬ Own s n n₁ f) (hcs : c ≠ s)

include h₁ h₂ hc hf hcs

/-- The first piece reads up to `c`; from there on only the second is walked. -/
theorem series_closed [DecidablePred fun p => Own s n n₁ p ∧ p ≠ c] :
    Closed (E₁ ++ E₂) fun p =>
      if Own s n n₁ p ∧ p ≠ c then walks E₁ s p else A₁ * walks E₂ c p := by
  have hsecond : ∀ p, Own c n₁ n' p ∨ p = f → ¬ (Own s n n₁ p ∧ p ≠ c) := by
    rintro p ((rfl | hp) | rfl) ⟨hown, hne⟩
    · exact hne rfl
    · have := h₁.own_lt hown
      omega
    · exact hf.elim (fun h => hne h) fun h => h hown
  refine closed_append.mpr ⟨?_, ?_⟩
  · intro e he
    have hle := walks_mul_letterOf_le (p := s) he
    simp only [if_pos (⟨h₁.src e he, h₁.exit e he⟩ : _ ∧ _)]
    split
    · exact hle
    · next hdst =>
      have heq : e.dst = c := by
        by_contra hne
        exact hdst ⟨(h₁.dst e he).resolve_right hne, hne⟩
      rw [heq, h₁.accept] at hle
      rw [heq]
      calc walks E₁ s e.src * letterOf e.lab ≤ A₁ := hle
        _ = A₁ * 1 := (mul_one _).symm
        _ ≤ A₁ * walks E₂ c c := mul_le_mul_right one_le_walks _
  · intro e he
    simp only [if_neg (hsecond _ (.inl (h₂.src e he))), if_neg (hsecond _ (h₂.dst e he))]
    exact closed_walks A₁ c e he

theorem walks_series [DecidablePred fun p => Own s n n₁ p ∧ p ≠ c] (p : ℕ) :
    walks (E₁ ++ E₂) s p =
      if Own s n n₁ p ∧ p ≠ c then walks E₁ s p else A₁ * walks E₂ c p := by
  refine le_antisymm ?_ ?_
  · refine (series_closed h₁ h₂ hc hf hcs).walks_le_of_one_le ?_
    rw [if_pos ⟨.inl rfl, hcs.symm⟩]
    exact one_le_walks
  · split
    · exact walks_mono fun e => List.mem_append_left _
    · rw [← h₁.accept]
      exact (mul_le_mul' (walks_mono fun e => List.mem_append_left _)
        (walks_mono fun e => List.mem_append_right _)).trans walks_mul_walks_le

/-- What is read up to the vertex between the pieces. -/
theorem walks_series_mid : walks (E₁ ++ E₂) s c = A₁ * K₂ := by
  classical
  rw [walks_series h₁ h₂ hc hf hcs, if_neg (fun h => h.2 rfl), h₂.back]

theorem series_of_ne : Piece n n' (E₁ ++ E₂) s f (A₁ * A₂) K₁ := by
  classical
  have hfc : ¬ (Own s n n₁ f ∧ f ≠ c) := fun h => hf.elim h.2 fun hf => hf h.1
  have hown : ∀ p, Own s n n₁ p → Own s n n' p := by
    intro p hp
    exact hp.imp_right fun hp => ⟨hp.1, hp.2.trans_le h₂.le⟩
  have hown₂ : ∀ p, Own c n₁ n' p → Own s n n' p := by
    rintro p (rfl | hp)
    · exact hown p hc
    · exact .inr ⟨h₁.le.trans hp.1, hp.2⟩
  refine ⟨h₁.le.trans h₂.le, h₁.lt, ?_, ?_, ?_, ?_, ?_, ?_, ?_⟩
  · rw [List.forall_mem_append]
    exact ⟨fun e he => hown _ (h₁.src e he), fun e he => hown₂ _ (h₂.src e he)⟩
  · rw [List.forall_mem_append]
    refine ⟨fun e he => .inl ?_, fun e he => (h₂.dst e he).imp_left (hown₂ _)⟩
    exact (h₁.dst e he).elim (hown _) fun h => h ▸ hown c hc
  · rw [List.forall_mem_append]
    refine ⟨?_, h₂.exit⟩
    rintro e he rfl
    exact hfc ⟨h₁.src e he, h₁.exit e he⟩
  · rintro rfl
    exact absurd ⟨.inl rfl, hcs.symm⟩ hfc
  · rw [walks_series h₁ h₂ hc hf hcs, if_neg hfc, h₂.accept]
  · rw [walks_series h₁ h₂ hc hf hcs, if_pos ⟨.inl rfl, hcs.symm⟩, h₁.back]
  · intro w p hw
    have hmem := (walks_series h₁ h₂ hc hf hcs p).le hw
    have htail : ∃ v, Walk E₂ c v f := h₂.trim [] c (.nil c)
    split at hmem
    · obtain ⟨v, hv⟩ := h₁.trim w p hmem
      obtain ⟨v', hv'⟩ := htail
      exact ⟨v ++ v', (hv.mono fun e => List.mem_append_left _).append
        (hv'.mono fun e => List.mem_append_right _)⟩
    · obtain ⟨_, _, w', hw', _⟩ := Language.mem_mul.mp hmem
      obtain ⟨v, hv⟩ := h₂.trim w' p hw'
      exact ⟨v, hv.mono fun e => List.mem_append_right _⟩

end Series

theorem series (h₁ : Piece n n₁ E₁ s c A₁ K₁) (h₂ : Piece n₁ n' E₂ c f A₂ K₂)
    (hc : Own s n n₁ c) (hf : f = c ∨ ¬ Own s n n₁ f) :
    Piece n n' (E₁ ++ E₂) s f (A₁ * A₂) (if c = s then K₂ else K₁) := by
  by_cases hcs : c = s
  · subst hcs
    obtain ⟨rfl, rfl, rfl⟩ := h₁.of_idle
    rw [if_pos rfl, one_mul, List.nil_append]
    exact h₂.weaken h₁.le h₁.lt
  · rw [if_neg hcs]
    exact series_of_ne h₁ h₂ hc hf hcs

/-! ## One of several repetitions -/

/-- The edges of one repetition: a way past it, its body, a way back, and what
follows. -/
def repetitionEdges (skipped looped : Bool) (s c f : ℕ) (E₁ E₂ : List (Edge ℕ α)) :
    List (Edge ℕ α) :=
  (if skipped then [⟨s, none, f⟩] else []) ++ E₁ ++ (if looped then [⟨c, none, s⟩] else []) ++ E₂

/-- Going back from `c` repeats `A₁`, and what `K₂` allows before the edge is taken. -/
def roundsOf (looped : Bool) (A₁ K₂ : Language α) : Language α :=
  if looped then (A₁ * K₂)∗ else 1

theorem repetition (skipped looped : Bool) (h₁ : Piece n n₁ E₁ s c A₁ K₁)
    (h₂ : Piece n₁ n' E₂ c f A₂ K₂) (hc : Own s n n₁ c) (hf : f < n) (hfs : f ≠ s)
    (hidle : c = s → K₂ = 1) :
    Piece n n' (repetitionEdges skipped looped s c f E₁ E₂) s f
      (roundsOf looped A₁ K₂ * ((if skipped then K₁ else 0) + A₁ * A₂))
      (roundsOf looped A₁ K₂ * K₁) := by
  have hown : ¬ Own s n n₁ f := by
    rintro (rfl | h)
    · exact hfs rfl
    · omega
  have hcf : c ≠ f := fun h => hown (h ▸ hc)
  have hser : Piece n n' (E₁ ++ E₂) s f (A₁ * A₂) K₁ := by
    have h := h₁.series h₂ hc (.inr hown)
    split at h
    · next hcs =>
      subst hcs
      rw [hidle rfl] at h
      rwa [h₁.of_idle.2.2]
    · exact h
  have hmid : walks (E₁ ++ E₂) s c = A₁ * K₂ := by
    by_cases hcs : c = s
    · subst hcs
      rw [hser.back, hidle rfl, h₁.of_idle.2.1, h₁.of_idle.2.2, mul_one]
    · exact walks_series_mid h₁ h₂ hc (.inr hown) hcs
  have hc' : Own s n n' c := hc.imp_right fun h => ⟨h.1, h.2.trans_le h₂.le⟩
  have hloop : Piece n n' ((if looped then [⟨c, none, s⟩] else []) ++ (E₁ ++ E₂)) s f
      (roundsOf looped A₁ K₂ * (A₁ * A₂)) (roundsOf looped A₁ K₂ * K₁) := by
    cases looped with
    | false => simpa [roundsOf] using hser
    | true => simpa [roundsOf, hmid] using hser.loop hfs hc' hcf
  cases skipped with
  | false =>
    have h : roundsOf looped A₁ K₂ * ((if false = true then K₁ else 0) + A₁ * A₂) =
        roundsOf looped A₁ K₂ * (A₁ * A₂) := by simp
    rw [h]
    refine hloop.congr fun e => ?_
    simp only [repetitionEdges, List.mem_append]
    tauto
  | true =>
    have h : roundsOf looped A₁ K₂ * ((if true = true then K₁ else 0) + A₁ * A₂) =
        roundsOf looped A₁ K₂ * K₁ + roundsOf looped A₁ K₂ * (A₁ * A₂) := by
      rw [if_pos rfl, mul_add]
    rw [h]
    refine (hloop.skip hfs).congr fun e => ?_
    simp only [repetitionEdges, List.mem_append, List.mem_cons, if_true, List.not_mem_nil]
    tauto

/-! ## Two pieces between a fork and a join -/

/-- The edges of a fork at `s` and of a join at `j`. -/
def forkJoin (s ls rs lf rf j : ℕ) : List (Edge ℕ α) :=
  [⟨s, none, ls⟩, ⟨s, none, rs⟩, ⟨lf, none, j⟩, ⟨rf, none, j⟩]

section Choice

variable {n₂ lf rf : ℕ} (h₁ : Piece (n + 2) n₁ E₁ n lf A₁ K₁) (hlf : Own n (n + 2) n₁ lf)
  (h₂ : Piece n₁ n₂ E₂ (n + 1) rf A₂ K₂) (hrf : Own (n + 1) n₁ n₂ rf) (hs : s < n)

include h₁ hlf h₂ hrf hs

theorem choice_closed [DecidablePred (Own n (n + 2) n₁)] :
    Closed (E₁ ++ E₂ ++ forkJoin s n (n + 1) lf rf n₂) fun p =>
      if p = s then 1 else if p = n₂ then A₁ + A₂
      else if Own n (n + 2) n₁ p then walks E₁ n p else walks E₂ (n + 1) p := by
  have hle := h₂.le
  have hle₁ := h₁.le
  have hleft : ∀ p, Own n (n + 2) n₁ p → p ≠ s ∧ p ≠ n₂ := by
    rintro p (rfl | hp) <;> constructor <;> omega
  have hright : ∀ p, Own (n + 1) n₁ n₂ p → p ≠ s ∧ p ≠ n₂ ∧ ¬ Own n (n + 2) n₁ p := by
    intro p hp
    have : ¬ Own n (n + 2) n₁ p := by
      rintro (rfl | h) <;> obtain h' | h' := hp <;> omega
    obtain rfl | hp := hp
    · exact ⟨by omega, by omega, this⟩
    · exact ⟨by omega, by omega, this⟩
  have hd₁ := h₁.dst_own hlf
  have hd₂ := h₂.dst_own hrf
  refine closed_append.mpr ⟨closed_append.mpr ⟨?_, ?_⟩, ?_⟩
  · intro e he
    have h := hleft _ (h₁.src e he)
    have h' := hleft _ (hd₁ e he)
    simp only [if_neg h.1, if_neg h.2, if_neg h'.1, if_neg h'.2, if_pos (h₁.src e he),
      if_pos (hd₁ e he)]
    exact walks_mul_letterOf_le he
  · intro e he
    have h := hright _ (h₂.src e he)
    have h' := hright _ (hd₂ e he)
    simp only [if_neg h.1, if_neg h.2.1, if_neg h.2.2, if_neg h'.1, if_neg h'.2.1, if_neg h'.2.2]
    exact walks_mul_letterOf_le he
  · have hnown : Own n (n + 2) n₁ n := .inl rfl
    have hn := hleft n hnown
    have hn' := hright (n + 1) (.inl rfl)
    have hl := hleft lf hlf
    have hr := hright rf hrf
    have hj : n₂ ≠ s := by omega
    simp only [Closed, forkJoin, List.forall_mem_cons, List.not_mem_nil, false_implies,
      implies_true, and_true, letterOf, mul_one, if_true, if_neg hn.1, if_neg hn.2,
      if_pos hnown, if_neg hn'.1, if_neg hn'.2.1, if_neg hn'.2.2,
      if_neg hl.1, if_neg hl.2, if_pos hlf, if_neg hr.1, if_neg hr.2.1, if_neg hr.2.2, if_neg hj,
      h₁.accept, h₂.accept]
    exact ⟨one_le_walks, one_le_walks, le_sup_left, le_sup_right⟩

theorem choice :
    Piece n (n₂ + 1) (E₁ ++ E₂ ++ forkJoin s n (n + 1) lf rf n₂) s n₂ (A₁ + A₂) 1 := by
  classical
  have hle := h₂.le
  have hle₁ := h₁.le
  have hjs : n₂ ≠ s := by omega
  have hR := choice_closed h₁ hlf h₂ hrf hs
  have hsub₁ : ∀ e ∈ E₁, e ∈ E₁ ++ E₂ ++ forkJoin s n (n + 1) lf rf n₂ := by
    intro e he
    exact List.mem_append_left _ (List.mem_append_left _ he)
  have hsub₂ : ∀ e ∈ E₂, e ∈ E₁ ++ E₂ ++ forkJoin s n (n + 1) lf rf n₂ := by
    intro e he
    exact List.mem_append_left _ (List.mem_append_right _ he)
  have hsub : ∀ e ∈ forkJoin s n (n + 1) lf rf n₂,
      e ∈ E₁ ++ E₂ ++ forkJoin s n (n + 1) lf rf n₂ := by
    intro e he
    exact List.mem_append_right _ he
  have hleft : ∀ {v p}, Walk E₁ p v lf →
      Walk (E₁ ++ E₂ ++ forkJoin s n (n + 1) lf rf n₂) p v n₂ := by
    intro v p hv
    exact (hv.mono hsub₁).append_eps (hsub _ (by simp [forkJoin]))
  have hright : ∀ {v p}, Walk E₂ p v rf →
      Walk (E₁ ++ E₂ ++ forkJoin s n (n + 1) lf rf n₂) p v n₂ := by
    intro v p hv
    exact (hv.mono hsub₂).append_eps (hsub _ (by simp [forkJoin]))
  have hone : (1 : Language α) ≤ if s = s then 1 else if s = n₂ then A₁ + A₂
      else if Own n (n + 2) n₁ s then walks E₁ n s else walks E₂ (n + 1) s := by simp
  have hgoL : (⟨s, none, n⟩ : Edge ℕ α) ∈ E₁ ++ E₂ ++ forkJoin s n (n + 1) lf rf n₂ :=
    hsub _ (by simp [forkJoin])
  have hgoR : (⟨s, none, n + 1⟩ : Edge ℕ α) ∈ E₁ ++ E₂ ++ forkJoin s n (n + 1) lf rf n₂ :=
    hsub _ (by simp [forkJoin])
  have hown₁ : ∀ p, Own n (n + 2) n₁ p → n ≤ p ∧ p < n₂ := by
    rintro p (rfl | hp) <;> omega
  have hown₂ : ∀ p, Own (n + 1) n₁ n₂ p → n ≤ p ∧ p < n₂ := by
    rintro p (rfl | hp) <;> omega
  have hd₁ := h₁.dst_own hlf
  have hd₂ := h₂.dst_own hrf
  have hbound : ∀ p, n ≤ p ∧ p < n₂ → Own s n (n₂ + 1) p := fun p hp => .inr ⟨hp.1, by omega⟩
  refine ⟨by omega, hs, ?_, ?_, ?_, fun h => absurd h hjs, ?_, ?_, ?_⟩
  · simp only [List.forall_mem_append]
    refine ⟨⟨fun e he => hbound _ (hown₁ _ (h₁.src e he)),
      fun e he => hbound _ (hown₂ _ (h₂.src e he))⟩, ?_⟩
    simpa [forkJoin, Own] using ⟨.inr (by have := hown₁ _ hlf; omega), .inr (by have := hown₂ _ hrf; omega)⟩
  · simp only [List.forall_mem_append]
    refine ⟨⟨fun e he => .inl (hbound _ (hown₁ _ (hd₁ e he))),
      fun e he => .inl (hbound _ (hown₂ _ (hd₂ e he)))⟩, ?_⟩
    simp [forkJoin, Own]
    omega
  · simp only [List.forall_mem_append]
    refine ⟨⟨fun e he => (hown₁ _ (h₁.src e he)).2.ne, fun e he => (hown₂ _ (h₂.src e he)).2.ne⟩, ?_⟩
    simpa [forkJoin] using ⟨hjs.symm, (hown₁ _ hlf).2.ne, (hown₂ _ hrf).2.ne⟩
  · refine le_antisymm ?_ ?_
    · have h := hR.walks_le_of_one_le (q := n₂) hone
      simpa [hjs] using h
    · rintro w (hw | hw)
      · rw [← h₁.accept] at hw
        exact .eps_append hgoL (hleft hw)
      · rw [← h₂.accept] at hw
        exact .eps_append hgoR (hright hw)
  · refine le_antisymm ?_ one_le_walks
    have h := hR.walks_le_of_one_le (q := s) hone
    simpa using h
  · intro w p hw
    have hmem := hR.walks_le_of_one_le hone hw
    split at hmem
    · next hp =>
      subst hp
      obtain ⟨v, hv⟩ := h₁.trim [] n (.nil n)
      exact ⟨v, .eps_append hgoL (hleft hv)⟩
    split at hmem
    · next hp => exact ⟨[], hp ▸ .nil p⟩
    split at hmem
    · obtain ⟨v, hv⟩ := h₁.trim w p hmem
      exact ⟨v, hleft hv⟩
    · obtain ⟨v, hv⟩ := h₂.trim w p hmem
      exact ⟨v, hright hv⟩

end Choice

end Piece

end Tesla.Lib
