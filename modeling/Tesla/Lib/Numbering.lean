/-
# `Tesla.Lib.Numbering` — values numbered as they come

A value that comes for the first time goes to the end of a list; its number is its place there.
The list has no value twice then, and what has a number keeps it.
-/
import Mathlib.Data.List.Basic
import Mathlib.Data.List.Nodup
import Mathlib.Data.List.Perm.Subperm

namespace Tesla.Lib

variable {α : Type*} [DecidableEq α] {l : List α} {c d : α} {cs : List α}

/-- The list with a place for `c`. -/
def intern (l : List α) (c : α) : List α := if c ∈ l then l else l ++ [c]

theorem prefix_intern : l <+: intern l c := by
  rw [intern]
  split
  · exact List.prefix_refl l
  · exact List.prefix_append l [c]

theorem mem_intern : d ∈ intern l c ↔ d ∈ l ∨ d = c := by
  rw [intern]
  split
  · next hc =>
    refine (or_iff_left_of_imp ?_).symm
    rintro rfl
    exact hc
  · rw [List.mem_append, List.mem_singleton]

theorem nodup_intern (h : l.Nodup) : (intern l c).Nodup := by
  rw [intern]
  split
  · exact h
  · next hc => exact List.nodup_append_comm.mp (List.nodup_cons.mpr ⟨hc, h⟩)

/-- The place of `c` is the one that it gets when it is not there. -/
theorem idxOf_intern : (intern l c).idxOf c = l.idxOf c := by
  rw [intern]
  split
  · rfl
  · next hc =>
    rw [List.idxOf_append_of_notMem hc, List.idxOf_cons_self, Nat.add_zero,
      List.idxOf_eq_length_iff.mpr hc]

theorem idxOf_eq_of_mem {l' : List α} (h : l <+: l') (hc : c ∈ l) : l'.idxOf c = l.idxOf c := by
  obtain ⟨r, rfl⟩ := h
  exact List.idxOf_append_of_mem hc

/-! ## All of them -/

def internAll (l cs : List α) : List α := cs.foldl intern l

theorem internAll_cons : internAll l (c :: cs) = internAll (intern l c) cs := rfl

theorem prefix_internAll : l <+: internAll l cs := by
  induction cs generalizing l with
  | nil => exact List.prefix_refl l
  | cons c cs ih => exact prefix_intern.trans ih

theorem mem_internAll : d ∈ internAll l cs ↔ d ∈ l ∨ d ∈ cs := by
  induction cs generalizing l with
  | nil => simp [internAll]
  | cons c cs ih => rw [internAll_cons, ih, mem_intern, List.mem_cons, or_assoc]

/-- The number that `c` is given when it comes stays its number. -/
theorem idxOf_internAll : (internAll (intern l c) cs).idxOf c = l.idxOf c := by
  rw [idxOf_eq_of_mem prefix_internAll (mem_intern.mpr (.inr rfl)), idxOf_intern]

/-- Different values all have places of their own. -/
theorem length_le_internAll (h : cs.Nodup) : cs.length ≤ (internAll l cs).length :=
  (List.subperm_of_subset h fun _ hc => mem_internAll.mpr (.inr hc)).length_le

end Tesla.Lib
