/-
# `Tesla.Runtime.Names` — when are instances identified by their names?

A class should hold at most one instance of a name.  Nothing in the run-time
looks for an existing one: late initialisation creates an instance without a
name for every init transition it stops at, and a FORK creates a copy of the
forking instance, which itself stays and forks again when the event recurs
(`fork_duplicates_name`).

So uniqueness of names is a property of the events.  `Visit.NamesApart` is
what one event has to satisfy, said of the class before the event:

    present      the active instances, or what late initialisation makes
    outcomes     what the scan leaves in their slots
    forkCopies   the copies they ask for

and `names_apart` is the induction over runs.  The order of slots does not
matter for any of this, so the lists are compared up to permutation.
-/
import Tesla.Runtime.Accounting
import Mathlib.Data.List.Perm.Basic

namespace Tesla.Runtime

open Lib

variable {P : Program} {c c' : Class} {d : Delivery} {evs evs' : List Event} {m : Nat}
  {ls ls' : LifetimeState}

/-- The active ones among `insts` have different names. -/
def Distinct (insts : List Instance) : Prop :=
  (insts.filter instanceActive).Pairwise fun x y => ¬ x.tiKey.SameName y.tiKey

instance (insts : List Instance) : Decidable (Distinct insts) :=
  inferInstanceAs (Decidable (List.Pairwise _ _))

/-- The active instances of the visited class when the scan begins. -/
def Visit.present (v : Visit) : List Instance :=
  if v.before.tcLimit = v.before.tcFree then (initHits v.autom).map initInstance
  else v.before.tcInstances.filter instanceActive

/-- The event makes no second instance of a name.  Nothing is asked of an event
that finds no room for its clones, or that resets the class. -/
def Visit.NamesApart (P : Program) (v : Visit) : Prop :=
  (v.before.tcLimit = v.before.tcFree → (initHits v.autom).length ≤ 1) ∧
    (v.before.tcFree < v.present.countP (isFork (v.delivery P)) ∨
      v.present.any (cleansUp (v.delivery P)) = true ∨
      Distinct (v.present.map (outcome (v.delivery P)) ++ forkCopies (v.delivery P) v.present))

instance (P : Program) (v : Visit) : Decidable (v.NamesApart P) :=
  inferInstanceAs (Decidable ((_ → _) ∧ _))

/-! ## Lists of instances, up to order -/

theorem Distinct.of_perm {xs ys : List Instance} (h : Distinct xs)
    (hp : (xs.filter instanceActive).Perm (ys.filter instanceActive)) : Distinct ys :=
  (hp.pairwise_iff fun {_ _} hxy hyx => hxy hyx.symm).mp h

theorem Distinct.sublist {xs ys : List Instance} (h : Distinct ys) (hs : xs.Sublist ys) :
    Distinct xs :=
  List.Pairwise.sublist (hs.filter _) h

theorem distinct_of_length {xs : List Instance} (h : (xs.filter instanceActive).length ≤ 1) :
    Distinct xs := by
  rw [Distinct]
  match hx : xs.filter instanceActive, h with
  | [], _ => exact .nil
  | [x], _ => exact List.pairwise_singleton ..

/-- Up to order, the active instances of a grown class are the old ones and the
new ones. -/
theorem Grown.perm {xs : List Instance} (h : Grown c xs c') :
    ((c.tcInstances ++ xs).filter instanceActive).Perm
      (c'.tcInstances.filter instanceActive) := by
  induction h with
  | nil c => rw [List.append_nil]
  | @cons c c' x old xs i hold hina _ _ ih =>
      refine .trans ?_ ih
      obtain ⟨hlt, rfl⟩ := List.getElem?_eq_some_iff.mp hold
      have hsplit : c.tcInstances.filter instanceActive =
          (c.tcInstances.take i).filter instanceActive ++
            (c.tcInstances.drop (i + 1)).filter instanceActive := by
        conv_lhs => rw [← List.take_append_drop i c.tcInstances, List.drop_eq_getElem_cons hlt]
        rw [List.filter_append, List.filter_cons_of_neg (by simp [hina])]
      show List.Perm ((c.tcInstances ++ x :: xs).filter instanceActive)
        ((c.tcInstances.set i x ++ xs).filter instanceActive)
      rw [List.set_eq_take_append_cons_drop, if_pos hlt]
      have hcons : ∀ l : List Instance, (x :: l).filter instanceActive =
          [x].filter instanceActive ++ l.filter instanceActive := by
        intro l
        rw [← List.singleton_append, List.filter_append]
      simp only [List.filter_append, hsplit, hcons xs, hcons (c.tcInstances.drop (i + 1)),
        List.append_assoc]
      exact List.Perm.append_left _ (List.perm_append_comm_assoc ..)

/-- What the scan does to a name: nothing, unless the instance is gone. -/
theorem outcome_key {inst : Instance} (h : instanceActive (outcome d inst) = true) :
    (outcome d inst).tiKey = inst.tiKey := by
  rcases outcome_cases (d := d) inst with ho | ⟨t, _, ho⟩ | ⟨t, _, ho⟩
  · rw [ho]
  · rw [ho]
  · rw [ho, instanceActive_zero] at h
    cases h

theorem Distinct.map_outcome {xs : List Instance} (h : Distinct xs) :
    Distinct (xs.map (outcome d)) := by
  rw [Distinct, List.pairwise_filter] at h ⊢
  rw [List.pairwise_map]
  refine h.imp fun {x y} hxy hx hy => ?_
  rw [outcome_key hx, outcome_key hy]
  exact hxy (active_of_outcome hx) (active_of_outcome hy)

theorem Distinct.scanned (h : Distinct c.tcInstances) (m : Nat) :
    Distinct (scanned d c m).tcInstances := by
  rw [← List.take_append_drop m c.tcInstances] at h
  show Distinct ((c.tcInstances.take m).map (outcome d) ++ c.tcInstances.drop m)
  rw [Distinct, List.pairwise_filter, List.pairwise_append] at h ⊢
  obtain ⟨htake, hdrop, hcross⟩ := h
  refine ⟨?_, hdrop, ?_⟩
  · have hmap := Distinct.map_outcome (d := d) (List.pairwise_filter.mpr htake)
    exact List.pairwise_filter.mp hmap
  · intro x hx y hy hax hay
    obtain ⟨u, hu, rfl⟩ := List.mem_map.mp hx
    rw [outcome_key hax]
    exact hcross u hu y hy (active_of_outcome hax) hay

theorem Distinct.cleared (n : Nat) : Distinct (List.replicate n Instance.zero) := by
  refine distinct_of_length ?_
  have hnil : (List.replicate n Instance.zero).filter instanceActive = [] := by
    rw [List.filter_eq_nil_iff]
    intro inst hinst
    cases List.eq_of_mem_replicate hinst
    simp
  rw [hnil]
  exact Nat.zero_le _

theorem Distinct.reset : Distinct (classReset c).tcInstances := .cleared _

/-! ## One delivery -/

theorem cleansUp_active {inst : Instance} (h : cleansUp d inst = true) :
    instanceActive inst = true := by
  by_contra hina
  rw [cleansUp, actionOf, action_inactive (by simpa using hina)] at h
  cases h

theorem forkCopies_filter (insts : List Instance) :
    forkCopies d (insts.filter instanceActive) = forkCopies d insts := by
  rw [forkCopies, List.filterMap_filter]
  refine List.filterMap_congr fun inst _ => ?_
  split
  · rfl
  · rename_i hina
    rw [forkCopy?, actionOf, action_inactive (by simpa using hina)]

theorem any_cleansUp_filter (insts : List Instance) :
    (insts.filter instanceActive).any (cleansUp d) = insts.any (cleansUp d) := by
  rw [List.any_filter]
  refine List.any_congr rfl fun inst => ?_
  cases h : cleansUp d inst with
  | false => rw [Bool.and_false]
  | true => rw [cleansUp_active h, Bool.and_self]

theorem filter_map_outcome (insts : List Instance) :
    ((insts.filter instanceActive).map (outcome d)).filter instanceActive =
      (insts.map (outcome d)).filter instanceActive := by
  rw [List.filter_map, List.filter_map, List.filter_filter]
  congr 1
  refine List.filter_congr fun inst _ => ?_
  cases h : (instanceActive ∘ outcome d) inst with
  | false => rfl
  | true => rw [active_of_outcome h]; rfl

section Passed
variable (hpass : ∀ inst ∈ c.tcInstances.drop m, instanceActive inst = false)
include hpass

/-- Once the scan has passed all active slots, the slots after it do not count. -/
theorem filter_take_of_passed :
    (c.tcInstances.take m).filter instanceActive = c.tcInstances.filter instanceActive := by
  have hnil : (c.tcInstances.drop m).filter instanceActive = [] :=
    List.filter_eq_nil_iff.mpr fun x hx => by simp [hpass x hx]
  conv_rhs => rw [← List.take_append_drop m c.tcInstances, List.filter_append, hnil]
  rw [List.append_nil]

theorem forkCopies_of_passed :
    forkCopies d (c.tcInstances.take m) = forkCopies d (c.tcInstances.filter instanceActive) := by
  rw [← filter_take_of_passed hpass, forkCopies_filter]

theorem filter_scanned_of_passed :
    (scanned d c m).tcInstances.filter instanceActive =
      ((c.tcInstances.filter instanceActive).map (outcome d)).filter instanceActive := by
  have hnil : (c.tcInstances.drop m).filter instanceActive = [] :=
    List.filter_eq_nil_iff.mpr fun x hx => by simp [hpass x hx]
  rw [← filter_take_of_passed hpass, filter_map_outcome, scanned, List.filter_append, hnil,
    List.append_nil]

/-- The copies join the scanned class without repeating a name. -/
theorem Distinct.grown_of_passed {n : Nat}
    (h : Distinct ((c.tcInstances.filter instanceActive).map (outcome d) ++
      forkCopies d (c.tcInstances.filter instanceActive)))
    (hg : Grown (Runtime.scanned d c m) ((forkCopies d (c.tcInstances.take m)).take n) c') :
    Distinct c'.tcInstances := by
  refine Distinct.of_perm ?_ hg.perm
  have hwhole : Distinct ((Runtime.scanned d c m).tcInstances ++
      forkCopies d (c.tcInstances.take m)) := by
    rw [Distinct, List.filter_append, filter_scanned_of_passed hpass, forkCopies_of_passed hpass,
      ← List.filter_append]
    exact h
  exact hwhole.sublist (List.Sublist.append_left (List.take_sublist ..) _)

end Passed

theorem Distinct.grown_nil (h : Distinct c.tcInstances) (hg : Grown c [] c') :
    Distinct c'.tcInstances := by
  cases hg
  exact h

theorem Delivered.distinct (hwf : c.WF) (hreach : Reach d c m)
    (hd : Delivered d c evs m c' evs') (h : Distinct c.tcInstances)
    (hroom : c.tcFree = d.maxClones ∨ (c.tcInstances.filter instanceActive).length ≤ 1)
    (hguard : d.maxClones < (c.tcInstances.filter instanceActive).countP (isFork d) ∨
      (c.tcInstances.filter instanceActive).any (cleansUp d) = true ∨
      Distinct ((c.tcInstances.filter instanceActive).map (outcome d) ++
        forkCopies d (c.tcInstances.filter instanceActive))) :
    Distinct c'.tcInstances := by
  have hscan := h.scanned (d := d) m
  rcases Nat.eq_zero_or_pos m with rfl | hpos
  · -- the scan was not entered: nothing was noted
    cases hd with
    | full => exact hscan
    | cloned _ _ hshort => cases hshort
    | done _ hg =>
        split
        · exact .reset
        · exact hscan.grown_nil hg
  · have hused := (hreach.reaches hwf hpos).1
    have hlen : (∀ inst ∈ c.tcInstances.drop m, instanceActive inst = false) →
        (forkCopies d (c.tcInstances.take m)).length =
          (c.tcInstances.filter instanceActive).countP (isFork d) := by
      intro hpass
      rw [forkCopies_of_passed hpass, forkCopies_length]
    have hle := hreach.room
    cases hd with
    | full => exact hscan
    | @cloned _ n _ hstop hg hshort hfree =>
        have hpass := inactive_of_stop hwf hused hstop
        rcases hguard with hlt | _ | hdis
        · rw [← hlen hpass] at hlt
          omega
        · -- a class that had room for all clones cannot run out of it
          have hfree' := hg.tcFree
          rw [hfree, List.length_take, scanned_tcFree] at hfree'
          rcases hroom with hroom | hone
          · omega
          · have hfew : (forkCopies d (c.tcInstances.take m)).length ≤ 1 := by
              rw [hlen hpass]
              exact List.countP_le_length.trans hone
            have hzero : n = 0 := by omega
            rw [hzero, List.take_zero] at hg
            exact hscan.grown_nil hg
        · exact hdis.grown_of_passed hpass hg
    | done hstop hg =>
        have hpass := inactive_of_stop hwf hused hstop
        split
        · exact .reset
        · rename_i hcl
          rcases hguard with hlt | hclean | hdis
          · rw [← hlen hpass] at hlt
            omega
          · rw [← filter_take_of_passed hpass, any_cleansUp_filter] at hclean
            exact (hcl hclean).elim
          · rw [← List.take_length (l := forkCopies d (c.tcInstances.take m))] at hg
            exact hdis.grown_of_passed hpass hg

/-! ## Runs -/

theorem present_of_init {v : Visit} (hwf : v.before.WF)
    (hempty : v.before.tcLimit = v.before.tcFree) (hone : (initHits v.autom).length ≤ 1)
    (hst : ∀ t ∈ initHits v.autom, t.toState ≠ 0)
    (hg : Grown v.before ((initHits v.autom).map initInstance) c) :
    c.tcInstances.filter instanceActive = v.present := by
  have hall : ((initHits v.autom).map initInstance).filter instanceActive =
      (initHits v.autom).map initInstance := by
    rw [List.filter_eq_self]
    intro x hx
    obtain ⟨t, ht, rfl⟩ := List.mem_map.mp hx
    exact active_of_state (hst t ht)
  have hperm := hg.perm
  rw [List.filter_append, hwf.filter_of_empty hempty, List.nil_append, hall] at hperm
  rw [Visit.present, if_pos hempty]
  -- a list of at most one element has no other order
  match hits : (initHits v.autom).map initInstance, hperm with
  | [], hperm => exact hperm.nil_eq.symm
  | [x], hperm => exact (List.singleton_perm.mp hperm).symm
  | x :: y :: zs, _ =>
      have := congrArg List.length hits
      simp only [List.length_map, List.length_cons] at this
      omega

theorem present_length_of_init {v : Visit} (hempty : v.before.tcLimit = v.before.tcFree)
    (hone : (initHits v.autom).length ≤ 1) : v.present.length ≤ 1 := by
  rw [Visit.present, if_pos hempty, List.length_map]
  exact hone

theorem Distinct.updated {v : Visit} (hwf : v.before.WF) (h : Distinct v.before.tcInstances)
    (hv : v.NamesApart P)
    (hu : Updated P v.autom v.cls v.symbol v.pattern v.before ls c' ls' evs) :
    Distinct c'.tcInstances := by
  obtain ⟨hone, hguard⟩ := hv
  cases hu with
  | returned hp => cases hp with
    | @failed _ n _ _ hempty _ hg =>
        refine distinct_of_length ?_
        rw [← hg.perm.length_eq, List.filter_append, hwf.filter_of_empty hempty, List.nil_append]
        have hfew : (((initHits v.autom).take n).map initInstance).length ≤ 1 := by
          rw [List.length_map, List.length_take]
          have := hone hempty
          omega
        exact (List.length_filter_le ..).trans hfew
  | @delivered c₁ _ _ _ _ ts _ hp hts hreach hd =>
      rw [Visit.delivery_eq hts] at hguard
      cases hp with
      | ready hused =>
          rw [Visit.present, if_neg hused] at hguard
          exact hd.distinct hwf hreach h (Or.inl rfl) hguard
      | init hempty _ hg hst =>
          have hpres := present_of_init hwf hempty (hone hempty) hst hg
          have hlen := present_length_of_init hempty (hone hempty)
          rw [← hpres] at hguard hlen
          exact hd.distinct (hwf.grown hg) hreach (distinct_of_length hlen) (Or.inr hlen) hguard

theorem distinct_preserved : Preserved P (fun c => c.WF ∧ Distinct c.tcInstances)
    (Visit.NamesApart P) (fun _ => True) (fun _ => True) where
  claim := fun h _ => ⟨⟨h.1.limit, h.1.bound⟩, h.2⟩
  update := by
    intro v a ls hv h _ _
    refine .intro (fun r hr => ⟨?_, fun _ _ => trivial⟩) fun _ _ => trivial
    have hu := updateFound_spec hr
    exact ⟨h.1.updated hu, h.2.updated h.1 hv hu⟩
  event := fun _ _ => trivial
  abort := fun _ _ => trivial

end Tesla.Runtime
