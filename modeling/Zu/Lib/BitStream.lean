import Mathlib

/-!
# Bits laid over words

A stream of bits lies over the words of a list: over all of them in order, or over
every `stride`-th word from a lane of its own. `fieldAt` reads a field of `w` bits
that may straddle two words, and `orField` writes one over zero bits.
-/

namespace Zu.Lib

/-- A machine word. -/
abbrev Word := BitVec 64

/-- The low `w` bits. -/
def mask (w : ℕ) : Word := if w = 64 then BitVec.allOnes 64 else (1 : Word) <<< w - 1

/-- The word at an index of the stream of a lane, zero past the end. -/
def wordAt (stride lane : ℕ) (ws : List Word) (q : ℕ) : Word :=
  ws.getD (stride * q + lane) 0

def bitAt (stride lane : ℕ) (ws : List Word) (b : ℕ) : Bool :=
  (wordAt stride lane ws (b / 64)).getLsbD (b % 64)

/-- The field of `w` bits from bit `s` of `lo`, which goes on in `hi`. -/
def join (w s : ℕ) (lo hi : Word) : Word :=
  if 64 < s + w then (lo >>> s ||| hi <<< (64 - s)) &&& mask w else (lo >>> s) &&& mask w

/-- The field of `w` bits at a bit of the stream. -/
def fieldAt (stride lane w : ℕ) (ws : List Word) (b : ℕ) : Word :=
  join w (b % 64) (wordAt stride lane ws (b / 64)) (wordAt stride lane ws (b / 64 + 1))

/-- Sets the bits of `v` in the field of `w` bits at a bit of the stream. -/
def orField (stride lane w : ℕ) (ws : List Word) (b : ℕ) (v : Word) : List Word :=
  let ws := ws.modify (stride * (b / 64) + lane) (· ||| v <<< (b % 64))
  if 64 < b % 64 + w then ws.modify (stride * (b / 64 + 1) + lane) (· ||| v >>> (64 - b % 64))
  else ws

theorem getLsbD_mask {w : ℕ} (hw : w ≤ 64) (j : ℕ) : (mask w).getLsbD j = decide (j < w) := by
  by_cases h : w = 64
  · rw [mask, if_pos h, BitVec.getLsbD_allOnes, h]
  · have hlt : w < 64 := lt_of_le_of_ne hw h
    have hpow : 2 ^ w < 2 ^ 64 := Nat.pow_lt_pow_right (by norm_num) hlt
    have hpos : 0 < 2 ^ w := Nat.two_pow_pos w
    have hone : ((1 : Word) <<< w).toNat = 2 ^ w := by
      change 1 <<< w % 2 ^ 64 = 2 ^ w
      rw [Nat.shiftLeft_eq, Nat.one_mul, Nat.mod_eq_of_lt hpow]
    have hval : ((1 : Word) <<< w - 1).toNat = 2 ^ w - 1 := by
      rw [BitVec.toNat_sub, hone]
      change (2 ^ 64 - 1 + 2 ^ w) % 2 ^ 64 = 2 ^ w - 1
      omega
    rw [mask, if_neg h, BitVec.getLsbD, hval, Nat.testBit_two_pow_sub_one]

/-- A value of `w` bits has no others. -/
theorem getLsbD_of_lt {w : ℕ} {v : Word} (h : v.toNat < 2 ^ w) {j : ℕ} (hj : w ≤ j) :
    v.getLsbD j = false :=
  Nat.testBit_lt_two_pow (h.trans_le (Nat.pow_le_pow_right (by norm_num) hj))

/-- A value of `w` bits is its own low `w` bits. -/
theorem and_mask {w : ℕ} (hw : w ≤ 64) {v : Word} (h : v.toNat < 2 ^ w) : v &&& mask w = v := by
  apply BitVec.eq_of_getLsbD_eq
  intro j _
  rw [BitVec.getLsbD_and, getLsbD_mask hw]
  by_cases hj : j < w
  · simp [hj]
  · simp [getLsbD_of_lt h (not_lt.1 hj)]

theorem getLsbD_join {w s : ℕ} (hw : w ≤ 64) (hs : s < 64) (lo hi : Word) (j : ℕ) :
    (join w s lo hi).getLsbD j =
      (decide (j < w) && if s + j < 64 then lo.getLsbD (s + j) else hi.getLsbD (s + j - 64)) := by
  by_cases hj : j < w
  · by_cases hstraddle : 64 < s + w
    · rw [join, if_pos hstraddle, BitVec.getLsbD_and, getLsbD_mask hw, BitVec.getLsbD_or,
        BitVec.getLsbD_ushiftRight, BitVec.getLsbD_shiftLeft]
      by_cases hin : s + j < 64
      · simp [hj, hin, show j < 64 - s by omega]
      · have hidx : j - (64 - s) = s + j - 64 := by omega
        have hout : lo.getLsbD (s + j) = false := BitVec.getLsbD_of_ge lo _ (not_lt.1 hin)
        simp [hj, hin, hidx, hout, show ¬ j < 64 - s by omega, show j < 64 by omega]
    · rw [join, if_neg hstraddle, BitVec.getLsbD_and, getLsbD_mask hw, BitVec.getLsbD_ushiftRight]
      simp [hj, show s + j < 64 by omega]
  · have hmask : (mask w).getLsbD j = false := by
      rw [getLsbD_mask hw]
      exact decide_eq_false hj
    rw [join]
    split <;> rw [BitVec.getLsbD_and, hmask, Bool.and_false] <;> simp [hj]

/-- A field has the bits of the stream it lies over. -/
theorem getLsbD_fieldAt {stride lane w : ℕ} (hw : w ≤ 64) (ws : List Word) (b j : ℕ) :
    (fieldAt stride lane w ws b).getLsbD j =
      (decide (j < w) && bitAt stride lane ws (b + j)) := by
  rw [fieldAt, getLsbD_join hw (Nat.mod_lt _ (by norm_num))]
  by_cases hj : j < w
  · by_cases hin : b % 64 + j < 64
    · have hdiv : (b + j) / 64 = b / 64 := by omega
      have hmod : (b + j) % 64 = b % 64 + j := by omega
      rw [if_pos hin, bitAt, hdiv, hmod]
    · have hdiv : (b + j) / 64 = b / 64 + 1 := by omega
      have hmod : (b + j) % 64 = b % 64 + j - 64 := by omega
      rw [if_neg hin, bitAt, hdiv, hmod]
  · simp [hj]

theorem stride_index_inj {stride lane lane' q q' : ℕ} (hl : lane < stride) (hl' : lane' < stride) :
    stride * q + lane = stride * q' + lane' ↔ q = q' ∧ lane = lane' := by
  constructor
  · intro h
    have hpos : 0 < stride := Nat.zero_lt_of_lt hl
    have hq : (stride * q + lane) / stride = (stride * q' + lane') / stride := by rw [h]
    rw [Nat.mul_add_div hpos, Nat.mul_add_div hpos, Nat.div_eq_of_lt hl, Nat.div_eq_of_lt hl',
      Nat.add_zero, Nat.add_zero] at hq
    exact ⟨hq, by rw [hq] at h; exact Nat.add_left_cancel h⟩
  · rintro ⟨rfl, rfl⟩
    rfl

/-- Setting bits in one word. -/
theorem wordAt_modify {stride lane lane' q q' : ℕ} (hl : lane < stride) (hl' : lane' < stride)
    {ws : List Word} (hlen : stride * q + lane < ws.length) (f : Word → Word) :
    wordAt stride lane' (ws.modify (stride * q + lane) f) q' =
      if q' = q ∧ lane' = lane then f (wordAt stride lane ws q) else wordAt stride lane' ws q' := by
  by_cases h : q' = q ∧ lane' = lane
  · obtain ⟨rfl, rfl⟩ := h
    simp [wordAt, hlen]
  · have hne : stride * q + lane ≠ stride * q' + lane' := by
      intro heq
      obtain ⟨hq, hlane⟩ := (stride_index_inj hl hl').1 heq
      exact h ⟨hq.symm, hlane.symm⟩
    rw [if_neg h, wordAt, wordAt, List.getD_eq_getElem?_getD, List.getD_eq_getElem?_getD,
      List.getElem?_modify_ne f ws hne]

/-- What `orField` does to the streams. -/
theorem bitAt_orField {stride lane lane' w : ℕ} (hw : w ≤ 64) (hl : lane < stride) (hl' : lane' < stride)
    {ws : List Word} {b : ℕ} {v : Word} (hv : v.toNat < 2 ^ w)
    (hlo : stride * (b / 64) + lane < ws.length)
    (hhi : 64 < b % 64 + w → stride * (b / 64 + 1) + lane < ws.length) (c : ℕ) :
    bitAt stride lane' (orField stride lane w ws b v) c =
      (bitAt stride lane' ws c || (decide (lane' = lane) && decide (b ≤ c) && v.getLsbD (c - b))) := by
  have hmod : c % 64 < 64 := Nat.mod_lt _ (by norm_num)
  by_cases hlane : lane' = lane
  swap
  · have hother : ∀ (q : ℕ), ¬ (c / 64 = q ∧ lane' = lane) := fun q h => hlane h.2
    rw [orField]
    simp only [hlane, decide_false, Bool.false_and, Bool.or_false]
    split
    · rename_i hstraddle
      rw [bitAt, wordAt_modify hl hl' (by rw [List.length_modify]; exact hhi hstraddle),
        if_neg (hother _), wordAt_modify hl hl' hlo, if_neg (hother _), bitAt]
    · rw [bitAt, wordAt_modify hl hl' hlo, if_neg (hother _), bitAt]
  · subst hlane
    simp only [decide_true, Bool.true_and]
    -- the word the field starts in, the one it goes on in, and the others
    by_cases hfirst : c / 64 = b / 64
    · have hsame : ∀ ws' : List Word, ws'.length = ws.length →
          64 < b % 64 + w → ∀ f, wordAt stride lane'
            (ws'.modify (stride * (b / 64 + 1) + lane') f) (c / 64) =
              wordAt stride lane' ws' (c / 64) := by
        intro ws' hws' hstraddle f
        rw [wordAt_modify hl hl (by rw [hws']; exact hhi hstraddle), if_neg (by omega)]
      have hword : wordAt stride lane' (orField stride lane' w ws b v) (c / 64) =
          wordAt stride lane' ws (c / 64) ||| v <<< (b % 64) := by
        rw [orField]
        split
        · rename_i hstraddle
          rw [hsame _ (by rw [List.length_modify]) hstraddle, wordAt_modify hl hl hlo,
            if_pos ⟨hfirst, rfl⟩, hfirst]
        · rw [wordAt_modify hl hl hlo, if_pos ⟨hfirst, rfl⟩, hfirst]
      rw [bitAt, hword, BitVec.getLsbD_or, bitAt, BitVec.getLsbD_shiftLeft]
      by_cases hle : b ≤ c
      · have hidx : c % 64 - b % 64 = c - b := by omega
        simp [hle, hidx, hmod, show ¬ c % 64 < b % 64 by omega]
      · simp [hle, show c % 64 < b % 64 by omega]
    · by_cases hnext : c / 64 = b / 64 + 1 ∧ 64 < b % 64 + w
      · obtain ⟨hnext, hstraddle⟩ := hnext
        have hword : wordAt stride lane' (orField stride lane' w ws b v) (c / 64) =
            wordAt stride lane' ws (c / 64) ||| v >>> (64 - b % 64) := by
          rw [orField]
          rw [if_pos hstraddle,
            wordAt_modify hl hl (by rw [List.length_modify]; exact hhi hstraddle),
            if_pos ⟨hnext, rfl⟩, wordAt_modify hl hl hlo, if_neg (by omega), hnext]
        have hidx : 64 - b % 64 + c % 64 = c - b := by omega
        rw [bitAt, hword, BitVec.getLsbD_or, bitAt, BitVec.getLsbD_ushiftRight, hidx]
        simp [show b ≤ c by omega]
      · have hword : wordAt stride lane' (orField stride lane' w ws b v) (c / 64) =
            wordAt stride lane' ws (c / 64) := by
          rw [orField]
          split
          · rename_i hstraddle
            rw [wordAt_modify hl hl (by rw [List.length_modify]; exact hhi hstraddle),
              if_neg (fun h => hnext ⟨h.1, hstraddle⟩), wordAt_modify hl hl hlo,
              if_neg (fun h => hfirst h.1)]
          · rw [wordAt_modify hl hl hlo, if_neg (fun h => hfirst h.1)]
        have hnone : (decide (b ≤ c) && v.getLsbD (c - b)) = false := by
          by_cases hle : b ≤ c
          · rw [getLsbD_of_lt hv (show w ≤ c - b by omega), Bool.and_false]
          · simp [hle]
        rw [bitAt, hword, hnone, Bool.or_false, bitAt]

theorem length_orField (stride lane w : ℕ) (ws : List Word) (b : ℕ) (v : Word) :
    (orField stride lane w ws b v).length = ws.length := by
  rw [orField]
  split
  · rw [List.length_modify, List.length_modify]
  · rw [List.length_modify]

end Zu.Lib
