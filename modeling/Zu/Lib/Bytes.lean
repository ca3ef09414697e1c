import Mathlib

/-!
# Byte strings

Little-endian fields of a fixed width, runs of zeros, and a positioned write
into a file that is seen as the list of its bytes. A write past the end of the
file fills the gap with zeros.
-/

namespace Zu

namespace Lib

/-- A string of bytes. -/
abbrev Bytes := List UInt8

/-- The `k` low bytes of `n`, the lowest first. -/
def leBytes : ℕ → ℕ → Bytes
  | 0, _ => []
  | k + 1, n => UInt8.ofNat n :: leBytes k (n / 256)

/-- The number whose bytes are given lowest first. -/
def fromLe : Bytes → ℕ
  | [] => 0
  | b :: bs => b.toNat + 256 * fromLe bs

@[simp] theorem length_leBytes (k n : ℕ) : (leBytes k n).length = k := by
  induction k generalizing n with
  | zero => rfl
  | succ k ih => rw [leBytes, List.length_cons, ih]

/-- A field of `k` bytes keeps its number modulo `256 ^ k`. -/
theorem fromLe_leBytes (k n : ℕ) : fromLe (leBytes k n) = n % 256 ^ k := by
  induction k generalizing n with
  | zero => rw [leBytes, fromLe, pow_zero, Nat.mod_one]
  | succ k ih =>
      have hlow : (UInt8.ofNat n).toNat = n % 256 := by simp
      rw [leBytes, fromLe, ih, hlow, pow_succ', Nat.mod_mul]

theorem fromLe_leBytes_of_lt {k n : ℕ} (h : n < 256 ^ k) :
    fromLe (leBytes k n) = n := by
  rw [fromLe_leBytes, Nat.mod_eq_of_lt h]

theorem fromLe_lt (bs : Bytes) : fromLe bs < 256 ^ bs.length := by
  induction bs with
  | nil => exact Nat.one_pos
  | cons b bs ih =>
      have hb : b.toNat < 256 := b.toNat_lt
      rw [fromLe, List.length_cons, pow_succ']
      omega

/-- A byte string is the field of its own number. -/
theorem leBytes_fromLe (bs : Bytes) : leBytes bs.length (fromLe bs) = bs := by
  induction bs with
  | nil => rfl
  | cons b bs ih =>
      have hb : b.toNat < 256 := b.toNat_lt
      have hhigh : (b.toNat + 256 * fromLe bs) / 256 = fromLe bs := by omega
      have hlow : UInt8.ofNat (b.toNat + 256 * fromLe bs) = b := by
        rw [← UInt8.toNat_inj, UInt8.toNat_ofNat']
        omega
      rw [List.length_cons, leBytes, fromLe, hhigh, hlow, ih]

theorem leBytes_fromLe_of_length {k : ℕ} {bs : Bytes} (h : bs.length = k) :
    leBytes k (fromLe bs) = bs := by
  rw [← h, leBytes_fromLe]

/-- Encodings laid end to end are no shorter than the list they encode, once no
encoding is empty. -/
theorem length_le_length_flatMap {α : Type*} {enc : α → Bytes} {as : List α}
    (h : ∀ a ∈ as, 1 ≤ (enc a).length) : as.length ≤ (as.flatMap enc).length := by
  induction as with
  | nil => exact Nat.zero_le _
  | cons a as ih =>
      have hrest := ih fun b hb => h b (List.mem_cons_of_mem a hb)
      have ha := h a List.mem_cons_self
      rw [List.flatMap_cons, List.length_append, List.length_cons]
      omega

/-- Each encoding is no longer than all of them end to end. -/
theorem length_le_of_mem_flatMap {α : Type*} (enc : α → Bytes) {a : α}
    {as : List α} (h : a ∈ as) : (enc a).length ≤ (as.flatMap enc).length := by
  induction as with
  | nil => simp at h
  | cons b as ih =>
      rw [List.flatMap_cons, List.length_append]
      rcases List.mem_cons.1 h with rfl | hmem
      · exact Nat.le_add_right _ _
      · exact (ih hmem).trans (Nat.le_add_left _ _)

theorem fromLe_append (as bs : Bytes) :
    fromLe (as ++ bs) = fromLe as + 256 ^ as.length * fromLe bs := by
  induction as with
  | nil => simp [fromLe]
  | cons a as ih =>
      rw [List.cons_append, fromLe, fromLe, ih, List.length_cons, pow_succ']
      ring

def zeros (n : ℕ) : Bytes := List.replicate n 0

@[simp] theorem length_zeros (n : ℕ) : (zeros n).length = n := by
  simp [zeros]

@[simp] theorem zeros_zero : zeros 0 = [] := rfl

theorem zeros_add (m n : ℕ) : zeros (m + n) = zeros m ++ zeros n :=
  List.replicate_add m n 0

theorem drop_zeros (k n : ℕ) : (zeros n).drop k = zeros (n - k) := by
  simp [zeros]

theorem take_zeros (k n : ℕ) : (zeros n).take k = zeros (min k n) := by
  simp [zeros]

/-- The number a run of zeros spells. -/
theorem fromLe_zeros (n : ℕ) : fromLe (zeros n) = 0 := by
  induction n with
  | zero => rfl
  | succ n ih =>
      have hcons : zeros (n + 1) = 0 :: zeros n := rfl
      rw [hcons, fromLe, ih]
      rfl

/-- Losing the high bytes of a field does not make its number larger. -/
theorem fromLe_take_append_zeros_le (d : Bytes) (j n : ℕ) :
    fromLe (d.take j ++ zeros n) ≤ fromLe d := by
  have hsplit := fromLe_append (d.take j) (d.drop j)
  rw [List.take_append_drop] at hsplit
  rw [fromLe_append, fromLe_zeros, hsplit]
  exact Nat.add_le_add_left (Nat.zero_le _) _

/-- The file `bs` once `data` has been written at `pos`. -/
def overwrite (bs : Bytes) (pos : ℕ) (data : Bytes) : Bytes :=
  (bs ++ zeros (pos - bs.length)).take pos ++ data ++ bs.drop (pos + data.length)

/-- A write that starts at the end of a prefix leaves the prefix. -/
theorem overwrite_append (pre bs data : Bytes) :
    overwrite (pre ++ bs) pre.length data = pre ++ data ++ bs.drop data.length := by
  have hgap : pre.length - (pre ++ bs).length = 0 := by
    rw [List.length_append]; omega
  rw [overwrite, hgap, zeros_zero, List.append_nil, List.take_left,
    List.drop_append, Nat.add_sub_cancel_left,
    List.drop_eq_nil_of_le (Nat.le_add_right _ _), List.nil_append]

/-- Zeros written past the data of a zero padded file leave it zero padded. -/
theorem overwrite_zeros {a : Bytes} {m pos : ℕ} (n : ℕ) (hle : a.length ≤ pos)
    (hin : pos ≤ a.length + m) :
    overwrite (a ++ zeros m) pos (zeros n) =
      a ++ zeros (max m (pos + n - a.length)) := by
  have hsplit : zeros m = zeros (pos - a.length) ++ zeros (a.length + m - pos) := by
    rw [← zeros_add]
    congr 1
    omega
  have hpre : (a ++ zeros (pos - a.length)).length = pos := by
    rw [List.length_append, length_zeros]
    omega
  have hwrite := overwrite_append (a ++ zeros (pos - a.length))
    (zeros (a.length + m - pos)) (zeros n)
  rw [hpre] at hwrite
  rw [hsplit, ← List.append_assoc, hwrite, drop_zeros, length_zeros,
    List.append_assoc, List.append_assoc, ← zeros_add, ← zeros_add]
  congr 2
  omega

/-- A prefix of `d` written over a prefix of `d` leaves the longer of the two. -/
theorem take_append_drop_take (d : Bytes) (n k m : ℕ) (hk : k ≤ d.length) :
    ∃ j m', d.take n ++ (d.take k ++ zeros m).drop (d.take n).length =
        d.take j ++ zeros m' ∧ j ≤ d.length ∧ j ≤ max k (min n d.length) ∧
          k + m ≤ j + m' := by
  have hlen : (d.take n).length = min n d.length := List.length_take
  have htake : d.take n = d.take (min n d.length) := by
    rw [List.take_eq_take_min]
  rw [hlen, htake]
  set n' := min n d.length with hn'
  rcases le_total n' k with hle | hle
  · refine ⟨k, m, ?_, hk, le_max_left _ _, le_rfl⟩
    have hn'k : n' ≤ (d.take k).length := by
      rw [List.length_take]
      omega
    have hfirst : d.take n' = (d.take k).take n' := by
      rw [List.take_take, min_eq_left hle]
    rw [List.drop_append_of_le_length hn'k, hfirst, ← List.append_assoc,
      List.take_append_drop]
  · refine ⟨n', m - (n' - k), ?_, min_le_right _ _, le_max_right _ _, by omega⟩
    have hk' : (d.take k).length = k := by
      rw [List.length_take]
      omega
    rw [List.drop_append, hk', List.drop_eq_nil_of_le (hk'.trans_le hle),
      List.nil_append, drop_zeros]

end Lib

end Zu

/-!
## The order of byte strings

Byte strings are compared byte by byte, and numbers that are written with the highest byte
first compare as the numbers do.
-/

namespace Zu

namespace Lib

/-- The `k` low bytes of `n`, the highest first. -/
def beBytes : ℕ → ℕ → Bytes
  | 0, _ => []
  | k + 1, n => UInt8.ofNat (n / 256 ^ k) :: beBytes k n

@[simp] theorem length_beBytes (k n : ℕ) : (beBytes k n).length = k := by
  induction k with
  | zero => rfl
  | succ k ih => rw [beBytes, List.length_cons, ih]

theorem beBytes_mod (k n : ℕ) : beBytes k (n % 256 ^ k) = beBytes k n := by
  have hlow : ∀ k m, k ≤ m → beBytes k (n % 256 ^ m) = beBytes k n := by
    intro k
    induction k with
    | zero => exact fun _ _ => rfl
    | succ k ih =>
        intro m hm
        rw [beBytes, beBytes, ih m (Nat.le_of_succ_le hm)]
        congr 1
        obtain ⟨j, rfl⟩ := Nat.exists_eq_add_of_le hm
        have hpow : 256 ^ (k + 1 + j) = 256 ^ k * (256 * 256 ^ j) := by ring
        apply UInt8.toNat_inj.1
        rw [UInt8.toNat_ofNat', UInt8.toNat_ofNat', hpow, Nat.mod_mul_right_div_self]
        exact Nat.mod_mul_right_mod _ _ _
  exact hlow k k (Nat.le_refl k)

/-- Numbers compare by how often a bound goes into them, then by what is left. -/
theorem compare_div_mod (a b m : ℕ) :
    compare a b = (compare (a / m) (b / m)).then (compare (a % m) (b % m)) := by
  have ha := Nat.div_add_mod a m
  have hb := Nat.div_add_mod b m
  rcases Nat.lt_trichotomy (a / m) (b / m) with hlt | heq | hlt
  · have hless : a < b := Nat.lt_of_div_lt_div hlt
    rw [Nat.compare_eq_lt.2 hlt, Nat.compare_eq_lt.2 hless]
    rfl
  · rw [Nat.compare_eq_eq.2 heq]
    rw [heq] at ha
    change compare a b = compare (a % m) (b % m)
    rcases Nat.lt_trichotomy (a % m) (b % m) with h | h | h
    · rw [Nat.compare_eq_lt.2 h, Nat.compare_eq_lt]
      omega
    · rw [Nat.compare_eq_eq.2 h, Nat.compare_eq_eq]
      omega
    · rw [Nat.compare_eq_gt.2 h, Nat.compare_eq_gt]
      omega
  · have hless : b < a := Nat.lt_of_div_lt_div hlt
    rw [Nat.compare_eq_gt.2 hlt, Nat.compare_eq_gt.2 hless]
    rfl

theorem compare_toNat (x y : UInt8) : compare x y = compare x.toNat y.toNat := by
  change compareOfLessAndEq x y = compareOfLessAndEq x.toNat y.toNat
  simp only [compareOfLessAndEq, UInt8.lt_iff_toNat_lt, UInt8.toNat_inj]

/-- Numbers written with the highest byte first compare as they are. -/
theorem compare_beBytes {k a b : ℕ} (ha : a < 256 ^ k) (hb : b < 256 ^ k) :
    compare (beBytes k a) (beBytes k b) = compare a b := by
  induction k generalizing a b with
  | zero =>
      rw [Nat.lt_one_iff.1 ha, Nat.lt_one_iff.1 hb]
      rfl
  | succ k ih =>
      have hpos : 0 < 256 ^ k := Nat.pow_pos (by decide)
      have hbyte : ∀ {n : ℕ}, n < 256 ^ (k + 1) →
          (UInt8.ofNat (n / 256 ^ k)).toNat = n / 256 ^ k := by
        intro n hn
        rw [UInt8.toNat_ofNat']
        apply Nat.mod_eq_of_lt
        rw [Nat.div_lt_iff_lt_mul hpos]
        rw [Nat.pow_succ, Nat.mul_comm] at hn
        exact hn
      have hhead : compare (UInt8.ofNat (a / 256 ^ k)) (UInt8.ofNat (b / 256 ^ k)) =
          compare (a / 256 ^ k) (b / 256 ^ k) := by
        rw [compare_toNat, hbyte ha, hbyte hb]
      rw [beBytes, beBytes, ← beBytes_mod k a, ← beBytes_mod k b, List.compare_cons_cons, hhead,
        ih (Nat.mod_lt a hpos) (Nat.mod_lt b hpos), ← compare_div_mod]

end Lib

end Zu
