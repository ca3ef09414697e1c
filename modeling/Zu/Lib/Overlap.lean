import Mathlib

/-!
# What two ascending lists have in common

The common elements are the first list's own that the second holds. They are found from the
front of the two lists, and from the two sides of a cut.
-/

namespace Zu.Lib

variable {α : Type} [LinearOrder α]

/-- The elements of the first list that are in the second. -/
def overlap (a b : List α) : List α := a.filter (· ∈ b)

@[simp] theorem overlap_nil_left (b : List α) : overlap [] b = [] := rfl

@[simp] theorem overlap_nil_right (a : List α) : overlap a [] = [] := by
  simp [overlap]

theorem length_overlap_le_left (a b : List α) : (overlap a b).length ≤ a.length :=
  List.length_filter_le _ _

theorem length_overlap_le_right {a b : List α} (ha : a.Pairwise (· < ·)) :
    (overlap a b).length ≤ b.length := by
  have hnodup : (overlap a b).Nodup := (ha.imp ne_of_lt).filter _
  apply (List.subperm_of_subset hnodup fun x hx => ?_).length_le
  simpa using (List.mem_filter.1 hx).2

theorem length_overlap_le {a b : List α} (ha : a.Pairwise (· < ·)) :
    (overlap a b).length ≤ min a.length b.length :=
  Nat.le_min.2 ⟨length_overlap_le_left a b, length_overlap_le_right ha⟩

/-- What is above all of one side does not meet it. -/
theorem overlap_eq_of_mem_iff {a b c : List α} (h : ∀ x ∈ a, x ∈ b ↔ x ∈ c) :
    overlap a b = overlap a c := by
  apply List.filter_congr
  intro x hx
  simp [h x hx]

section

variable {x y : α} {a b : List α}

theorem overlap_cons_lt (hxy : x < y) (hb : (y :: b).Pairwise (· < ·)) :
    overlap (x :: a) (y :: b) = overlap a (y :: b) := by
  have hx : x ∉ y :: b := by
    intro hmem
    rcases List.mem_cons.1 hmem with rfl | hmem
    · exact lt_irrefl x hxy
    · exact lt_asymm hxy (List.rel_of_pairwise_cons hb hmem)
  rw [overlap, List.filter_cons, if_neg (by simpa using hx)]
  rfl

theorem overlap_cons_gt (hyx : y < x) (ha : (x :: a).Pairwise (· < ·)) :
    overlap (x :: a) (y :: b) = overlap (x :: a) b := by
  apply overlap_eq_of_mem_iff
  intro z hz
  have hyz : z ≠ y := by
    rintro rfl
    rcases List.mem_cons.1 hz with rfl | hz
    · exact lt_irrefl z hyx
    · exact lt_asymm hyx (List.rel_of_pairwise_cons ha hz)
  rw [List.mem_cons, or_iff_right hyz]

theorem overlap_cons_eq (ha : (x :: a).Pairwise (· < ·)) :
    overlap (x :: a) (x :: b) = x :: overlap a b := by
  rw [overlap, List.filter_cons, if_pos (by simp)]
  congr 1
  apply overlap_eq_of_mem_iff
  intro z hz
  have hxz : z ≠ x := (ne_of_lt (List.rel_of_pairwise_cons ha hz)).symm
  rw [List.mem_cons, or_iff_right hxz]

end

/-- A cut through both lists at one value. -/
theorem overlap_cut {p : α} {a a' b b' : List α} (ha : ∀ x ∈ a, x < p) (ha' : ∀ x ∈ a', p ≤ x)
    (hb : ∀ y ∈ b, y < p) (hb' : ∀ y ∈ b', p ≤ y) :
    overlap (a ++ a') (b ++ b') = overlap a b ++ overlap a' b' := by
  have hleft : overlap a (b ++ b') = overlap a b := by
    apply overlap_eq_of_mem_iff
    intro x hx
    rw [List.mem_append, or_iff_left fun h => (not_lt.2 (hb' x h)) (ha x hx)]
  have hright : overlap a' (b ++ b') = overlap a' b' := by
    apply overlap_eq_of_mem_iff
    intro x hx
    rw [List.mem_append, or_iff_right fun h => (not_lt.2 (ha' x hx)) (hb x h)]
  rw [← hleft, ← hright]
  exact List.filter_append _ _

/-- The common elements are the second list's own, too. -/
theorem overlap_comm {a b : List α} (ha : a.Pairwise (· < ·)) (hb : b.Pairwise (· < ·)) :
    overlap a b = overlap b a := by
  apply List.Perm.eq_of_pairwise (fun x y _ _ hxy hyx => absurd hyx (lt_asymm hxy))
    (ha.filter _) (hb.filter _)
  rw [List.perm_ext_iff_of_nodup ((ha.imp ne_of_lt).filter _) ((hb.imp ne_of_lt).filter _)]
  intro x
  simp [and_comm]

end Zu.Lib
