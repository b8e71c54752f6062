/-
# `Tesla.Lib.Walks` — walks through a labelled graph

A graph is a list of edges; an edge carries a letter or nothing.  `walks E p q`
is the language read on the way from `p` to `q`.

Lower bounds on it are given by exhibiting walks.  Upper bounds are given by a
*labelling* `R` of the vertices with languages that every edge respects
(`Closed`): then `R p * walks E p q ≤ R q`, and a labelling is checked one edge
at a time.

The last section identifies `walks` with the words of Mathlib's `εNFA`.
-/
import Mathlib.Computability.EpsilonNFA
import Mathlib.Computability.Language
import Mathlib.Order.CompletePartialOrder

namespace Tesla.Lib

open Computability

structure Edge (V α : Type*) where
  src : V
  lab : Option α
  dst : V
deriving DecidableEq

variable {V α : Type*} {E E' : List (Edge V α)} {e : Edge V α} {p q r : V} {u v w : List α}
  {R : V → Language α}

inductive Walk (E : List (Edge V α)) : V → List α → V → Prop
  | nil (p : V) : Walk E p [] p
  | cons {e : Edge V α} {w : List α} {q : V} (he : e ∈ E) (h : Walk E e.dst w q) :
      Walk E e.src (e.lab.toList ++ w) q

namespace Walk

theorem mono (hE : ∀ e ∈ E, e ∈ E') (h : Walk E p w q) : Walk E' p w q := by
  induction h with
  | nil p => exact nil p
  | cons he _ ih => exact cons (hE _ he) ih

theorem append (h : Walk E p u q) (h' : Walk E q v r) : Walk E p (u ++ v) r := by
  induction h with
  | nil p => exact h'
  | cons he _ ih =>
    rw [List.append_assoc]
    exact cons he (ih h')

theorem edge (he : e ∈ E) : Walk E e.src e.lab.toList e.dst := by
  simpa using cons he (nil e.dst)

theorem eps (he : ⟨p, none, q⟩ ∈ E) : Walk E p [] q := edge he

theorem letter {a : α} (he : ⟨p, some a, q⟩ ∈ E) : Walk E p [a] q := edge he

theorem append_eps (h : Walk E p w q) (he : ⟨q, none, r⟩ ∈ E) : Walk E p w r := by
  simpa using h.append (eps he)

theorem eps_append (he : ⟨p, none, q⟩ ∈ E) (h : Walk E q w r) : Walk E p w r := cons he h

/-- A walk that goes anywhere enters its last vertex by an edge. -/
theorem eq_or_entered (h : Walk E p w q) : q = p ∧ w = [] ∨ ∃ e ∈ E, e.dst = q := by
  induction h with
  | nil p => exact .inl ⟨rfl, rfl⟩
  | cons he _ ih =>
    obtain ⟨rfl, _⟩ | h := ih
    · exact .inr ⟨_, he, rfl⟩
    · exact .inr h

/-- A walk passes a vertex at every position of its word. -/
theorem split (h : Walk E p (u ++ v) q) : ∃ r, Walk E p u r ∧ Walk E r v q := by
  generalize hw : u ++ v = w at h
  induction h generalizing u with
  | nil p =>
    obtain ⟨rfl, rfl⟩ := List.append_eq_nil_iff.mp hw
    exact ⟨p, .nil p, .nil p⟩
  | @cons e w q he h ih =>
    obtain ⟨x, hx, rfl⟩ | ⟨x, rfl, rfl⟩ := List.append_eq_append_iff.mp hw
    · -- the cut is at one of the two ends of the first edge
      have hux : u = [] ∨ x = [] := by
        cases hlab : e.lab with
        | none =>
          rw [hlab] at hx
          exact .inl (List.append_eq_nil_iff.mp hx.symm).1
        | some a =>
          rw [hlab] at hx
          exact (List.append_eq_singleton_iff.mp hx.symm).imp And.left And.right
      obtain rfl | rfl := hux
      · exact ⟨e.src, .nil _, by simpa [hx] using cons he h⟩
      · exact ⟨e.dst, by simpa [hx] using edge he, h⟩
    · obtain ⟨r, hu, hv⟩ := ih rfl
      exact ⟨r, cons he hu, hv⟩

/-- A walk that reads one letter crosses one edge that carries it. -/
theorem exists_letter {a : α} (h : Walk E p [a] r) :
    ∃ e ∈ E, Walk E p [] e.src ∧ e.lab = some a ∧ Walk E e.dst [] r := by
  generalize hw : [a] = w at h
  induction h with
  | nil p => cases hw
  | @cons e w q he h ih =>
    cases hlab : e.lab with
    | none =>
      rw [hlab] at hw
      obtain ⟨e', he', hp, ha, hr⟩ := ih hw
      exact ⟨e', he', by simpa [hlab] using cons he hp, ha, hr⟩
    | some b =>
      rw [hlab] at hw
      obtain ⟨rfl, rfl⟩ := List.cons.inj hw
      exact ⟨e, he, .nil _, hlab, h⟩

theorem concat_iff {a : α} :
    Walk E p (w ++ [a]) r ↔ ∃ e ∈ E, Walk E p w e.src ∧ e.lab = some a ∧ Walk E e.dst [] r := by
  constructor
  · intro h
    obtain ⟨q, hpq, hqr⟩ := split h
    obtain ⟨e, he, hq, ha, hr⟩ := exists_letter hqr
    exact ⟨e, he, by simpa using hpq.append hq, ha, hr⟩
  · rintro ⟨e, he, hp, ha, hr⟩
    refine hp.append ?_
    simpa [ha] using cons he hr

theorem eq_of_no_exit (hp : ∀ e ∈ E, e.src ≠ p) (h : Walk E p w q) : q = p ∧ w = [] := by
  cases h with
  | nil => exact ⟨rfl, rfl⟩
  | cons he _ => exact absurd rfl (hp _ he)

/-- A walk over more edges is one over the edges of a region that it cannot leave. -/
theorem restrict {S : V → Prop} (hE : ∀ e ∈ E', S e.src → e ∈ E ∧ S e.dst) (hp : S p)
    (h : Walk E' p w q) : Walk E p w q ∧ S q := by
  induction h with
  | nil p => exact ⟨nil p, hp⟩
  | cons he _ ih =>
    obtain ⟨hmem, hdst⟩ := hE _ he hp
    exact ⟨cons hmem (ih hdst).1, (ih hdst).2⟩

/-- Walks are carried along a map of the vertices. -/
theorem map {V' : Type*} {F : List (Edge V' α)} {m : V → V'}
    (hE : ∀ e ∈ E, ⟨m e.src, e.lab, m e.dst⟩ ∈ F) (h : Walk E p w q) : Walk F (m p) w (m q) := by
  induction h with
  | nil p => exact nil _
  | cons he _ ih => exact cons (hE _ he) ih

/-- Where a walk along `w` can be at each position; this is checked edge by edge. -/
theorem table {S : ℕ → V → Prop} {i : ℕ}
    (hE : ∀ e ∈ E, ∀ i ≤ w.length, S i e.src →
      (e.lab = none → S i e.dst) ∧ (e.lab ≠ none → e.lab = w[i]? → S (i + 1) e.dst))
    (hi : i ≤ w.length) (hp : S i p) (h : Walk E p (w.drop i) q) : S w.length q := by
  generalize hv : w.drop i = v at h
  induction h generalizing i with
  | nil p =>
    rw [List.drop_eq_nil_iff] at hv
    rwa [Nat.le_antisymm hi hv] at hp
  | @cons e v q he _ ih =>
    obtain ⟨heps, hlet⟩ := hE e he i hi hp
    cases hlab : e.lab with
    | none =>
      rw [hlab] at hv
      exact ih hi (heps hlab) hv
    | some a =>
      rw [hlab] at hv
      have hlt : i < w.length := by
        by_contra hn
        rw [List.drop_of_length_le (by omega)] at hv
        cases hv
      rw [List.drop_eq_getElem_cons hlt] at hv
      obtain ⟨ha, hv⟩ := List.cons.inj hv
      refine ih hlt (hlet (by simp [hlab]) ?_) hv
      rw [hlab, List.getElem?_eq_getElem hlt, ha]

end Walk

def walks (E : List (Edge V α)) (p q : V) : Language α := {w | Walk E p w q}

theorem one_le_walks : (1 : Language α) ≤ walks E p p := by
  intro w hw
  obtain rfl := (Language.mem_one w).mp hw
  exact .nil p

theorem walks_mul_walks_le : walks E p q * walks E q r ≤ walks E p r := by
  intro w hw
  obtain ⟨u, hu, v, hv, rfl⟩ := Language.mem_mul.mp hw
  exact Walk.append hu hv

theorem walks_mono (hE : ∀ e ∈ E, e ∈ E') : walks E p q ≤ walks E' p q :=
  fun _ h => Walk.mono hE h

theorem walks_self_mul (p q : V) : walks E p p * walks E p q = walks E p q := by
  refine le_antisymm walks_mul_walks_le ?_
  calc walks E p q = 1 * walks E p q := (one_mul _).symm
    _ ≤ walks E p p * walks E p q := mul_le_mul_left one_le_walks _

theorem walks_eq_one_of_no_exit (hp : ∀ e ∈ E, e.src ≠ p) : walks E p p = 1 := by
  refine le_antisymm ?_ one_le_walks
  intro w hw
  rw [(Walk.eq_of_no_exit hp hw).2]
  exact Language.nil_mem_one

/-! ## Labellings -/

/-- What an edge reads. -/
def letterOf : Option α → Language α
  | none => 1
  | some a => {[a]}

theorem mem_letterOf {o : Option α} : w ∈ letterOf o ↔ w = o.toList := by
  cases o with
  | none => exact Language.mem_one w
  | some a => exact Iff.rfl

/-- Every edge takes what its source is labelled with into the label of its target. -/
def Closed (E : List (Edge V α)) (R : V → Language α) : Prop :=
  ∀ e ∈ E, R e.src * letterOf e.lab ≤ R e.dst

theorem Closed.walk (hR : Closed E R) (h : Walk E p w q) (hu : u ∈ R p) : u ++ w ∈ R q := by
  induction h generalizing u with
  | nil p => simpa using hu
  | cons he _ ih =>
    rw [← List.append_assoc]
    exact ih (hR _ he (Language.append_mem_mul hu (mem_letterOf.mpr rfl)))

theorem Closed.walks_le (hR : Closed E R) : R p * walks E p q ≤ R q := by
  intro w hw
  obtain ⟨u, hu, v, hv, rfl⟩ := Language.mem_mul.mp hw
  exact hR.walk hv hu

/-- A closed labelling whose start has the empty word bounds the walks. -/
theorem Closed.walks_le_of_one_le (hR : Closed E R) (hp : 1 ≤ R p) : walks E p q ≤ R q :=
  calc walks E p q = 1 * walks E p q := (one_mul _).symm
    _ ≤ R p * walks E p q := mul_le_mul_left hp _
    _ ≤ R q := hR.walks_le

theorem closed_append : Closed (E ++ E') R ↔ Closed E R ∧ Closed E' R := by
  simp only [Closed, List.forall_mem_append]

theorem walks_mul_letterOf_le (he : e ∈ E) :
    walks E p e.src * letterOf e.lab ≤ walks E p e.dst := by
  intro w hw
  obtain ⟨u, hu, v, hv, rfl⟩ := Language.mem_mul.mp hw
  rw [mem_letterOf.mp hv]
  exact Walk.append hu (.edge he)

/-- The walks from a vertex, with a language in front, are a closed labelling. -/
theorem closed_walks (X : Language α) (p : V) : Closed E (fun q => X * walks E p q) := by
  intro e he
  show X * walks E p e.src * letterOf e.lab ≤ X * walks E p e.dst
  rw [mul_assoc]
  exact mul_le_mul_right (walks_mul_letterOf_le he) X

/-! ## Words of an automaton -/

/-- The automaton with the given edges that starts in `S` and accepts in `F`. -/
def ofEdges (E : List (Edge V α)) (S F : Set V) : εNFA α V where
  step p o := {q | ⟨p, o, q⟩ ∈ E}
  start := S
  accept := F

variable {S F : Set V}

theorem walk_iff_isPath :
    Walk E p w q ↔ ∃ x, x.reduceOption = w ∧ (ofEdges E S F).IsPath p q x := by
  constructor
  · intro h
    induction h with
    | nil p => exact ⟨[], rfl, .nil p⟩
    | @cons e w q he _ ih =>
      obtain ⟨x, rfl, hx⟩ := ih
      refine ⟨e.lab :: x, ?_, .cons _ _ _ _ _ he hx⟩
      cases e.lab <;> simp
  · rintro ⟨x, rfl, hx⟩
    induction hx with
    | nil s => exact .nil s
    | cons t s u a x hstep _ ih =>
      have h := Walk.cons (e := ⟨s, a, t⟩) hstep ih
      cases a <;> simpa using h

theorem mem_evalFrom_ofEdges : q ∈ (ofEdges E S F).evalFrom {p} w ↔ Walk E p w q := by
  rw [εNFA.mem_evalFrom_iff_exists_path, walk_iff_isPath]

theorem mem_eval_ofEdges : q ∈ (ofEdges E S F).eval w ↔ ∃ p ∈ S, Walk E p w q := by
  rw [εNFA.eval, εNFA.mem_evalFrom_iff_exists]
  exact exists_congr fun p => and_congr_right fun _ => mem_evalFrom_ofEdges

theorem mem_accepts_ofEdges :
    w ∈ (ofEdges E S F).accepts ↔ ∃ p ∈ S, ∃ q ∈ F, Walk E p w q := by
  constructor
  · rintro ⟨q, hq, h⟩
    obtain ⟨p, hp, hw⟩ := mem_eval_ofEdges.mp h
    exact ⟨p, hp, q, hq, hw⟩
  · rintro ⟨p, hp, q, hq, hw⟩
    exact ⟨q, hq, mem_eval_ofEdges.mpr ⟨p, hp, hw⟩⟩

end Tesla.Lib
