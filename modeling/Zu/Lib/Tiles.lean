import Mathlib

/-!
# Ranges that tile

Ranges cut one after another, none of them empty, from one end of a stretch to the other.
Together they hold what the stretch holds, in its order.
-/

namespace Zu.Lib

variable {α : Type}

/-- What a range of positions holds of a list. -/
def stretch (l : List α) (r : ℕ × ℕ) : List α := (l.take r.2).drop r.1

/-- Each range starts where the one before it ends, and none is empty. -/
def Tiles : ℕ → List (ℕ × ℕ) → ℕ → Prop
  | lo, [], hi => lo = hi
  | lo, r :: rs, hi => r.1 = lo ∧ r.1 < r.2 ∧ Tiles r.2 rs hi

theorem Tiles.le {lo hi : ℕ} {rs : List (ℕ × ℕ)} (h : Tiles lo rs hi) : lo ≤ hi := by
  induction rs generalizing lo with
  | nil => exact Nat.le_of_eq h
  | cons r rs ih =>
      obtain ⟨rfl, hlt, htail⟩ := h
      exact Nat.le_trans (Nat.le_of_lt hlt) (ih htail)

theorem Tiles.append {lo mid hi : ℕ} {rs rs' : List (ℕ × ℕ)} (h : Tiles lo rs mid)
    (h' : Tiles mid rs' hi) : Tiles lo (rs ++ rs') hi := by
  induction rs generalizing lo with
  | nil => exact (show lo = mid from h) ▸ h'
  | cons r rs ih =>
      obtain ⟨hlo, hlt, htail⟩ := h
      exact ⟨hlo, hlt, ih htail⟩

theorem stretch_append {l : List α} {lo mid hi : ℕ} (h : lo ≤ mid) (h' : mid ≤ hi) :
    stretch l (lo, mid) ++ stretch l (mid, hi) = stretch l (lo, hi) := by
  rw [stretch, stretch, stretch, List.drop_take, List.drop_take, List.drop_take]
  have hmid : l.drop mid = (l.drop lo).drop (mid - lo) := by
    rw [List.drop_drop, Nat.add_sub_cancel' h]
  have hlen : hi - lo = (mid - lo) + (hi - mid) := by omega
  rw [hmid, hlen, List.take_add]

@[simp] theorem stretch_self (l : List α) (lo : ℕ) : stretch l (lo, lo) = [] :=
  List.drop_eq_nil_of_le (List.length_take_le _ _)

theorem stretch_whole (l : List α) : stretch l (0, l.length) = l := by
  rw [stretch, List.take_length, List.drop_zero]

/-- Ranges that tile a stretch hold it in order, each position once. -/
theorem Tiles.flatMap_stretch {lo hi : ℕ} {rs : List (ℕ × ℕ)} (h : Tiles lo rs hi) (l : List α) :
    rs.flatMap (stretch l) = stretch l (lo, hi) := by
  induction rs generalizing lo with
  | nil => rw [(show lo = hi from h), stretch_self, List.flatMap_nil]
  | cons r rs ih =>
      obtain ⟨rfl, hlt, htail⟩ := h
      rw [List.flatMap_cons, ih htail]
      exact stretch_append (Nat.le_of_lt hlt) htail.le

end Zu.Lib
