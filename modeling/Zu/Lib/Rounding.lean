import Mathlib

/-!
# Rounding a fraction

Rounding of rationals to integers, and what a division of integers that goes toward nought
gives of it.
-/

namespace Zu.Lib

/-- The whole part, toward nought. -/
def truncate (q : ℚ) : ℤ := if q < 0 then ⌈q⌉ else ⌊q⌋

/-- The nearest integer, half away from nought. -/
def roundAway (q : ℚ) : ℤ := if q < 0 then ⌈q - 1 / 2⌉ else ⌊q + 1 / 2⌋

variable {n m d : ℤ}

theorem roundAway_neg (q : ℚ) : roundAway (-q) = -roundAway q := by
  rcases lt_trichotomy q 0 with h | rfl | h
  · rw [roundAway, roundAway, if_neg (by linarith), if_pos h, ← Int.floor_neg]
    congr 1
    ring
  · norm_num [roundAway]
  · rw [roundAway, roundAway, if_pos (by linarith), if_neg (by linarith), ← Int.ceil_neg]
    congr 1
    ring

theorem roundAway_intCast (n : ℤ) : roundAway n = n := by
  rw [roundAway]
  split
  case isTrue => exact Int.ceil_eq_iff.2 ⟨by linarith, by linarith⟩
  case isFalse => exact Int.floor_eq_iff.2 ⟨by linarith, by linarith⟩

/-- A fraction has a whole part when its numerator lies between two multiples. -/
theorem floor_div (hd : 0 < d) (hlo : m * d ≤ n) (hhi : n < (m + 1) * d) : ⌊(n : ℚ) / d⌋ = m := by
  have hq : (0 : ℚ) < d := by exact_mod_cast hd
  rw [Int.floor_eq_iff, le_div_iff₀ hq, div_lt_iff₀ hq]
  exact ⟨by exact_mod_cast hlo, by exact_mod_cast hhi⟩

theorem ceil_div (hd : 0 < d) (hlo : (m - 1) * d < n) (hhi : n ≤ m * d) : ⌈(n : ℚ) / d⌉ = m := by
  have hq : (0 : ℚ) < d := by exact_mod_cast hd
  rw [Int.ceil_eq_iff, lt_div_iff₀ hq, div_le_iff₀ hq]
  exact ⟨by exact_mod_cast hlo, by exact_mod_cast hhi⟩

theorem div_neg_iff_of_pos (hd : 0 < d) : (n : ℚ) / d < 0 ↔ n < 0 := by
  have hq : (0 : ℚ) < d := by exact_mod_cast hd
  rw [div_lt_iff₀ hq, zero_mul]
  exact Int.cast_lt_zero

/-- A division toward nought leaves what has the numerator's sign and is smaller than the
divisor. -/
theorem tdiv_bounds (hd : 0 < d) :
    n = n.tdiv d * d + n.tmod d ∧ (0 ≤ n → 0 ≤ n.tmod d ∧ n.tmod d < d) ∧
      (n < 0 → n.tmod d ≤ 0 ∧ -d < n.tmod d) := by
  constructor
  · rw [mul_comm]
    exact (Int.mul_tdiv_add_tmod n d).symm
  constructor
  · exact fun hn => ⟨Int.tmod_nonneg d hn, Int.tmod_lt_of_pos n hd⟩
  · intro hn
    have hneg := Int.neg_tmod n d
    have hle := Int.tmod_nonneg (a := -n) d (by omega)
    have hlt := Int.tmod_lt_of_pos (-n) hd
    exact ⟨by omega, by omega⟩

theorem floor_tdiv (hd : 0 < d) :
    ⌊(n : ℚ) / d⌋ = if n.tmod d < 0 then n.tdiv d - 1 else n.tdiv d := by
  obtain ⟨heq, hpos, hneg⟩ := tdiv_bounds (n := n) hd
  split
  case isTrue h =>
    have hn : n < 0 := by
      by_contra hle
      have := hpos (not_lt.1 hle)
      omega
    exact floor_div hd (by linarith [hneg hn]) (by linarith)
  case isFalse h =>
    have hlt : n.tmod d < d := by
      rcases lt_or_ge n 0 with hn | hn
      · linarith [hneg hn]
      · exact (hpos hn).2
    exact floor_div hd (by linarith) (by linarith)

theorem ceil_tdiv (hd : 0 < d) :
    ⌈(n : ℚ) / d⌉ = if 0 < n.tmod d then n.tdiv d + 1 else n.tdiv d := by
  obtain ⟨heq, hpos, hneg⟩ := tdiv_bounds (n := n) hd
  split
  case isTrue h =>
    have hn : 0 ≤ n := by
      by_contra hlt
      have := hneg (not_le.1 hlt)
      omega
    exact ceil_div hd (by linarith) (by linarith [hpos hn])
  case isFalse h =>
    have hlt : -d < n.tmod d := by
      rcases lt_or_ge n 0 with hn | hn
      · exact (hneg hn).2
      · linarith [hpos hn]
    exact ceil_div hd (by linarith) (by linarith)

theorem truncate_tdiv (hd : 0 < d) : truncate ((n : ℚ) / d) = n.tdiv d := by
  obtain ⟨heq, hpos, hneg⟩ := tdiv_bounds (n := n) hd
  rw [truncate]
  split
  case isTrue h =>
    rw [ceil_tdiv hd, if_neg (not_lt.2 (hneg ((div_neg_iff_of_pos hd).1 h)).1)]
  case isFalse h =>
    have hn : 0 ≤ n := not_lt.1 fun hn => h ((div_neg_iff_of_pos hd).2 hn)
    rw [floor_tdiv hd, if_neg (not_lt.2 (hpos hn).1)]

/-- A half or more of what is left over is one more away from nought. -/
theorem roundAway_tdiv (hd : 0 < d) :
    roundAway ((n : ℚ) / d) =
      if d ≤ |n.tmod d * 2| then (if n < 0 then n.tdiv d - 1 else n.tdiv d + 1) else n.tdiv d := by
  obtain ⟨heq, hpos, hneg⟩ := tdiv_bounds (n := n) hd
  have hq : (d : ℚ) ≠ 0 := by exact_mod_cast hd.ne'
  rw [roundAway]
  by_cases hn : n < 0
  · obtain ⟨hle, hlt⟩ := hneg hn
    have hhalf : (n : ℚ) / d - 1 / 2 = ((2 * n - d : ℤ) : ℚ) / ((2 * d : ℤ) : ℚ) := by
      push_cast
      field_simp
    rw [if_pos ((div_neg_iff_of_pos hd).2 hn), if_pos hn, hhalf, abs_of_nonpos (by omega)]
    split
    case isTrue h => exact ceil_div (by omega) (by linarith) (by linarith)
    case isFalse h => exact ceil_div (by omega) (by linarith) (by linarith)
  · obtain ⟨hle, hlt⟩ := hpos (not_lt.1 hn)
    have hhalf : (n : ℚ) / d + 1 / 2 = ((2 * n + d : ℤ) : ℚ) / ((2 * d : ℤ) : ℚ) := by
      push_cast
      field_simp
    rw [if_neg fun h => hn ((div_neg_iff_of_pos hd).1 h), if_neg hn, hhalf,
      abs_of_nonneg (by omega)]
    split
    case isTrue h => exact floor_div (by omega) (by linarith) (by linarith)
    case isFalse h => exact floor_div (by omega) (by linarith) (by linarith)

end Zu.Lib
