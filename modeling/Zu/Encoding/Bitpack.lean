import Zu.Lib.BitStream
import Zu.Lib.Chunks
import Zu.Lib.Bytes

/-!
# Fixed-width bit packing

Up to 1024 values at one width, in whole words. A full chunk lies in sixteen lanes
that advance together, each over every sixteenth word; a short tail lies over the
words in order, and so does every chunk at width 1. The packed size tells which.
-/

namespace Zu.Encoding

open Lib

/-- `CHUNK`: values per chunk. -/
def chunkLen : ℕ := 1024

def lanes : ℕ := 16

/-- `bits_needed`: bits to represent `max`. -/
def bitsNeeded (max : Word) : ℕ := if max = 0 then 0 else max.toNat.log2 + 1

/-- `packed_bytes`: whole words for `count` values of `width` bits. -/
def packedBytes (width count : ℕ) : ℕ := (count * width + 63) / 64 * 8

def wordBytes (ws : List Word) : Bytes := ws.flatMap fun w => leBytes 8 w.toNat

def wordsOf (bytes : Bytes) : List Word :=
  ((chunks 8 bytes).filter fun c => c.length = 8).map fun c => BitVec.ofNat 64 (fromLe c)

/-- The words of a tail: a word goes out when it is full, and what did not fit of
the value that filled it starts the next one. -/
def packWords (width : ℕ) : Word → ℕ → List Word → List Word
  | acc, bits, [] => if 0 < bits then [acc] else []
  | acc, bits, raw :: values =>
      let v := raw &&& mask width
      let acc := acc ||| v <<< bits
      let bits := bits + width
      if 64 ≤ bits then
        acc :: packWords width (if bits - 64 = 0 then 0 else v >>> (width - (bits - 64)))
          (bits - 64) values
      else packWords width acc bits values

attribute [grind =] packWords

/-- The words of a full chunk: value `i` is at bit `i / 16 * width` of lane `i % 16`. -/
def packTransposedFrom (width : ℕ) : ℕ → List Word → List Word → List Word
  | _, words, [] => words
  | i, words, raw :: values =>
      packTransposedFrom width (i + 1)
        (orField lanes (i % lanes) width words (i / lanes * width) (raw &&& mask width)) values

def packTransposed (values : List Word) (width : ℕ) : List Word :=
  packTransposedFrom width 0 (List.replicate (lanes * width) 0) values

/-- `pack`: up to 1024 values at `width` bits. -/
def pack (values : List Word) (width : ℕ) : Bytes :=
  if width = 0 then []
  else if 1 < width ∧ width < 64 ∧ packedBytes width values.length = 128 * width then
    wordBytes (packTransposed values width)
  else wordBytes (packWords width 0 0 values)

/-- `unpack_transposed`: each step reads one field of every lane. -/
def unpackTransposed (words : List Word) (width : ℕ) : List Word :=
  (List.range (chunkLen / lanes)).flatMap fun t =>
    (List.range lanes).map fun lane => fieldAt lanes lane width words (t * width)

/-- `unpack_const`: 64 values take `width` words. -/
def unpackConst (words : List Word) (width : ℕ) : List Word :=
  (List.range (chunkLen / 64)).flatMap fun block =>
    (List.range 64).map fun i =>
      join width (i * width % 64) (words.getD (block * width + i * width / 64) 0)
        (words.getD (block * width + i * width / 64 + 1) 0)

/-- `unpack`: one chunk of 1024 values, zero where `packed` holds fewer. -/
def unpack (packed : Bytes) (width : ℕ) : List Word :=
  if width = 0 then List.replicate chunkLen 0
  else if width = 64 then
    let words := (wordsOf packed).take chunkLen
    words ++ List.replicate (chunkLen - words.length) 0
  else
    let words := (wordsOf packed).take (lanes * width)
    if 1 < width ∧ packed.length = 128 * width then unpackTransposed words width
    else unpackConst words width

/-! ### Widths -/

theorem lt_two_pow_bitsNeeded (v : Word) : v.toNat < 2 ^ bitsNeeded v := by
  by_cases h : v = 0
  · rw [bitsNeeded, if_pos h, h]
    exact Nat.one_pos
  · rw [bitsNeeded, if_neg h]
    exact Nat.lt_log2_self

theorem bitsNeeded_le_iff {v : Word} {w : ℕ} : bitsNeeded v ≤ w ↔ v.toNat < 2 ^ w := by
  constructor
  · intro h
    exact (lt_two_pow_bitsNeeded v).trans_le (Nat.pow_le_pow_right (by norm_num) h)
  · intro h
    by_cases hv : v = 0
    · rw [bitsNeeded, if_pos hv]
      exact Nat.zero_le w
    · have hne : v.toNat ≠ 0 := fun hzero => hv (BitVec.eq_of_toNat_eq hzero)
      rw [bitsNeeded, if_neg hv]
      exact (Nat.log2_lt hne).2 h

theorem bitsNeeded_le (v : Word) : bitsNeeded v ≤ 64 := bitsNeeded_le_iff.2 v.isLt

theorem bitsNeeded_mono {v v' : Word} (h : v.toNat ≤ v'.toNat) : bitsNeeded v ≤ bitsNeeded v' :=
  bitsNeeded_le_iff.2 (h.trans_lt (lt_two_pow_bitsNeeded v'))

/-! ### Words as bytes -/

theorem length_wordBytes (ws : List Word) : (wordBytes ws).length = 8 * ws.length := by
  induction ws with
  | nil => rfl
  | cons w ws ih =>
      rw [wordBytes, List.flatMap_cons, List.length_append, length_leBytes]
      rw [wordBytes] at ih
      rw [ih, List.length_cons]
      ring

theorem word_fromLe (w : Word) : BitVec.ofNat 64 (fromLe (leBytes 8 w.toNat)) = w := by
  rw [fromLe_leBytes_of_lt (by exact w.isLt), BitVec.ofNat_toNat, BitVec.setWidth_eq]

theorem wordsOf_wordBytes (ws : List Word) : wordsOf (wordBytes ws) = ws := by
  have hparts : chunks 8 (wordBytes ws) = ws.map fun w => leBytes 8 w.toNat := by
    rw [wordBytes, List.flatMap_def]
    exact chunks_flatten (by norm_num) (by simp)
  rw [wordsOf, hparts, List.filter_eq_self.2 (by simp), List.map_map]
  exact (List.map_congr_left fun w _ => word_fromLe w).trans (List.map_id ws)

/-! ### The stream a packed chunk holds -/

/-- A bit of values laid end to end, each of `width` bits. -/
def sourceBit (width : ℕ) (values : List Word) (b : ℕ) : Bool :=
  (values.getD (b / width) 0).getLsbD (b % width)

theorem sourceBit_cons {width : ℕ} (hw : 0 < width) (v : Word) (values : List Word) (b : ℕ) :
    sourceBit width (v :: values) b =
      if b < width then v.getLsbD b else sourceBit width values (b - width) := by
  by_cases h : b < width
  · rw [if_pos h, sourceBit, Nat.div_eq_of_lt h, Nat.mod_eq_of_lt h]
    rfl
  · have hle := not_lt.1 h
    have hdiv : b / width = (b - width) / width + 1 := by
      rw [Nat.div_eq_sub_div hw hle]
    have hmod : b % width = (b - width) % width := Nat.mod_eq_sub_mod hle
    rw [if_neg h, sourceBit, hdiv, hmod]
    rfl

theorem sourceBit_mul_add {width : ℕ} {values : List Word} {i : ℕ} (hi : i < values.length)
    {j : ℕ} (hj : j < width) : sourceBit width values (i * width + j) = values[i].getLsbD j := by
  have hpos : 0 < width := Nat.zero_lt_of_lt hj
  rw [sourceBit, Nat.mul_comm, Nat.mul_add_div hpos, Nat.div_eq_of_lt hj, Nat.mul_add_mod,
    Nat.mod_eq_of_lt hj, Nat.add_zero, List.getD_eq_getElem _ _ hi]

theorem bitAt_cons (w : Word) (ws : List Word) (b : ℕ) :
    bitAt 1 0 (w :: ws) b = if b < 64 then w.getLsbD b else bitAt 1 0 ws (b - 64) := by
  by_cases h : b < 64
  · rw [if_pos h, bitAt, wordAt, Nat.div_eq_of_lt h, Nat.mod_eq_of_lt h]
    rfl
  · have hdiv : b / 64 = (b - 64) / 64 + 1 := by omega
    have hmod : b % 64 = (b - 64) % 64 := by omega
    rw [if_neg h, bitAt, wordAt, hdiv, hmod, bitAt, wordAt]
    simp

/-- The words of a tail hold what the accumulator has and then the values. The
induction is on the values, for every accumulator. -/
theorem bitAt_packWords {width : ℕ} (hpos : 0 < width) (hw : width ≤ 64) {acc : Word} {bits : ℕ}
    (hbits : bits < 64) (hacc : ∀ p, bits ≤ p → acc.getLsbD p = false) {values : List Word}
    (hv : ∀ v ∈ values, v.toNat < 2 ^ width) (b : ℕ) :
    bitAt 1 0 (packWords width acc bits values) b =
      if b < bits then acc.getLsbD b else sourceBit width values (b - bits) := by
  induction values generalizing acc bits b with
  | nil =>
      have hsource : sourceBit width [] (b - bits) = false := by
        rw [sourceBit, List.getD_nil]
        exact BitVec.getLsbD_zero
      have hnil : bitAt 1 0 [] = fun _ => false := by
        funext c
        rw [bitAt, wordAt, List.getD_nil]
        exact BitVec.getLsbD_zero
      rw [packWords, hsource]
      by_cases hzero : 0 < bits
      · rw [if_pos hzero, bitAt_cons, hnil]
        by_cases hlt : b < bits
        · rw [if_pos hlt, if_pos (hlt.trans hbits)]
        · rw [if_neg hlt]
          split
          · exact hacc b (not_lt.1 hlt)
          · rfl
      · rw [if_neg hzero, if_neg (by omega), hnil]
  | cons raw values ih =>
      have hraw := hv raw List.mem_cons_self
      have hrest : ∀ v ∈ values, v.toNat < 2 ^ width := fun v hmem =>
        hv v (List.mem_cons_of_mem _ hmem)
      rw [packWords, and_mask hw hraw]
      -- the accumulator with the value put in, below and above its old end
      have hput : ∀ p, p < 64 → (acc ||| raw <<< bits).getLsbD p =
          if p < bits then acc.getLsbD p else raw.getLsbD (p - bits) := by
        intro p hp
        rw [BitVec.getLsbD_or, BitVec.getLsbD_shiftLeft]
        by_cases hlt : p < bits
        · simp [hlt]
        · rw [hacc p (not_lt.1 hlt), Bool.false_or, if_neg hlt]
          simp [hlt, hp]
      by_cases hfull : 64 ≤ bits + width
      · rw [if_pos hfull, bitAt_cons]
        by_cases hfirst : b < 64
        · rw [if_pos hfirst, hput b hfirst]
          by_cases hlt : b < bits
          · rw [if_pos hlt, if_pos hlt]
          · rw [if_neg hlt, if_neg hlt, sourceBit_cons hpos, if_pos (by omega)]
        · generalize hcarry : (if bits + width - 64 = 0 then (0 : Word)
            else raw >>> (width - (bits + width - 64))) = carry
          have hleft : ∀ p, carry.getLsbD p =
              (decide (bits + width - 64 ≠ 0) && raw.getLsbD (64 - bits + p)) := by
            intro p
            rw [← hcarry]
            split
            · rename_i hzero
              simp [hzero]
            · rename_i hzero
              have hshift : width - (bits + width - 64) = 64 - bits := by omega
              rw [BitVec.getLsbD_ushiftRight, hshift]
              simp [hzero]
          have hover : ∀ p, bits + width - 64 ≤ p → carry.getLsbD p = false := by
            intro p hp
            rw [hleft, getLsbD_of_lt hraw (by omega), Bool.and_false]
          rw [if_neg hfirst, ih (by omega) hover hrest, if_neg (by omega : ¬ b < bits),
            sourceBit_cons hpos]
          by_cases hlt : b - 64 < bits + width - 64
          · have hidx : 64 - bits + (b - 64) = b - bits := by omega
            have hne : bits + width - 64 ≠ 0 := by omega
            have hown : b - bits < width := by omega
            rw [if_pos hlt, if_pos hown, hleft, hidx, decide_eq_true hne, Bool.true_and]
          · have hidx : b - 64 - (bits + width - 64) = b - bits - width := by omega
            rw [if_neg hlt, if_neg (by omega), hidx]
      · have hover : ∀ p, bits + width ≤ p → (acc ||| raw <<< bits).getLsbD p = false := by
          intro p hp
          by_cases hp64 : p < 64
          · rw [hput p hp64, if_neg (by omega)]
            exact getLsbD_of_lt hraw (by omega)
          · exact BitVec.getLsbD_of_ge _ _ (not_lt.1 hp64)
        rw [if_neg hfull, ih (by omega) hover hrest]
        by_cases hlt : b < bits + width
        · rw [if_pos hlt, hput b (by omega)]
          by_cases hold : b < bits
          · rw [if_pos hold, if_pos hold]
          · rw [if_neg hold, if_neg hold, sourceBit_cons hpos, if_pos (by omega)]
        · have hidx : b - (bits + width) = b - bits - width := by omega
          rw [if_neg hlt, if_neg (by omega : ¬ b < bits), sourceBit_cons hpos,
            if_neg (by omega), hidx]

theorem bitAt_packWords_zero {width : ℕ} (hpos : 0 < width) (hw : width ≤ 64)
    {values : List Word} (hv : ∀ v ∈ values, v.toNat < 2 ^ width) (b : ℕ) :
    bitAt 1 0 (packWords width 0 0 values) b = sourceBit width values b := by
  have hacc : ∀ p, 0 ≤ p → (0 : Word).getLsbD p = false := fun p _ => BitVec.getLsbD_zero
  rw [bitAt_packWords hpos hw (by norm_num) hacc hv, if_neg (Nat.not_lt_zero _), Nat.sub_zero]

theorem length_packWords {width : ℕ} (hw : width ≤ 64) (acc : Word) {bits : ℕ}
    (hbits : bits < 64) (values : List Word) :
    (packWords width acc bits values).length = (bits + values.length * width + 63) / 64 := by
  induction values generalizing acc bits with
  | nil =>
      rw [packWords, List.length_nil, Nat.zero_mul]
      split
      · rw [List.length_singleton]
        omega
      · rw [List.length_nil]
        omega
  | cons raw values ih =>
      have hmul : (values.length + 1) * width = width + values.length * width := by ring
      rw [packWords, List.length_cons, hmul]
      split
      · rw [List.length_cons, ih _ (by omega)]
        omega
      · rw [ih _ (by omega)]
        congr 2
        omega

/-! ### The transposed layout -/

theorem length_packTransposedFrom (width i : ℕ) (words values : List Word) :
    (packTransposedFrom width i words values).length = words.length := by
  induction values generalizing i words with
  | nil => rfl
  | cons raw values ih => rw [packTransposedFrom, ih, length_orField]

/-- Every lane holds what it held and the values that belong to it. -/
theorem bitAt_packTransposedFrom {width : ℕ} (hw : width ≤ 64) {i : ℕ} {words values : List Word}
    (hlen : words.length = lanes * width) (hcount : i + values.length ≤ chunkLen)
    (hv : ∀ v ∈ values, v.toNat < 2 ^ width) {lane : ℕ} (hlane : lane < lanes) (b : ℕ) :
    bitAt lanes lane (packTransposedFrom width i words values) b =
      (bitAt lanes lane words b || (values.zipIdx i).any fun p =>
        decide (lane = p.2 % lanes) && decide (p.2 / lanes * width ≤ b) &&
          p.1.getLsbD (b - p.2 / lanes * width)) := by
  induction values generalizing i words with
  | nil => simp [packTransposedFrom]
  | cons raw values ih =>
      have hraw := hv raw List.mem_cons_self
      have hi : i < chunkLen := by
        rw [List.length_cons] at hcount
        omega
      have hpos : i % lanes < lanes := Nat.mod_lt _ (by decide)
      -- the field ends within the lane
      have hstep : (i / lanes + 1) * width ≤ 64 * width := by
        apply Nat.mul_le_mul_right
        have : i / 16 < 64 := by
          rw [chunkLen] at hi
          omega
        exact this
      have hend : i / lanes * width + width ≤ 64 * width := by
        rw [← Nat.succ_mul]
        exact hstep
      have hfits : ∀ q, q < width → lanes * q + i % lanes < words.length := by
        intro q hq
        rw [hlen]
        calc lanes * q + i % lanes < lanes * q + lanes := Nat.add_lt_add_left hpos _
          _ = lanes * (q + 1) := (Nat.mul_succ lanes q).symm
          _ ≤ lanes * width := Nat.mul_le_mul_left _ hq
      have hzero : width = 0 ∨ i / lanes * width / 64 < width := by
        by_cases hwz : width = 0
        · exact .inl hwz
        · right
          rw [Nat.div_lt_iff_lt_mul (by norm_num)]
          omega
      rw [packTransposedFrom, and_mask hw hraw]
      by_cases hwz : width = 0
      · subst hwz
        have hnil : words = [] := List.eq_nil_of_length_eq_zero (by rw [hlen, Nat.mul_zero])
        have hzraw : raw = 0 := BitVec.eq_of_toNat_eq (by rw [pow_zero] at hraw; exact Nat.lt_one_iff.1 hraw)
        subst hnil hzraw
        have hor : orField lanes (i % lanes) 0 [] (i / lanes * 0) 0 = [] := by
          apply List.eq_nil_of_length_eq_zero
          rw [length_orField, List.length_nil]
        rw [hor, ih hlen (by rw [List.length_cons] at hcount; omega) fun v hmem =>
          hv v (List.mem_cons_of_mem _ hmem)]
        simp
      · have hlo := hfits _ (hzero.resolve_left hwz)
        have hhi : 64 < i / lanes * width % 64 + width →
            lanes * (i / lanes * width / 64 + 1) + i % lanes < words.length := by
          intro hstraddle
          apply hfits
          omega
        rw [ih (by rw [length_orField, hlen]) (by rw [List.length_cons] at hcount; omega)
          (fun v hmem => hv v (List.mem_cons_of_mem _ hmem)),
          bitAt_orField hw hpos hlane hraw hlo hhi, List.zipIdx_cons, List.any_cons, Bool.or_assoc]

theorem bitAt_packTransposed {width : ℕ} (hw : width ≤ 64) {values : List Word}
    (hcount : values.length ≤ chunkLen) (hv : ∀ v ∈ values, v.toNat < 2 ^ width) {i : ℕ}
    (hi : i < values.length) {j : ℕ} (hj : j < width) :
    bitAt lanes (i % lanes) (packTransposed values width) (i / lanes * width + j) =
      values[i].getLsbD j := by
  have hlane : i % lanes < lanes := Nat.mod_lt _ (by decide)
  have hblank : bitAt lanes (i % lanes) (List.replicate (lanes * width) 0)
      (i / lanes * width + j) = false := by
    rw [bitAt, wordAt, List.getD_eq_getElem?_getD, List.getElem?_replicate]
    split <;> exact BitVec.getLsbD_zero
  rw [packTransposed, bitAt_packTransposedFrom hw (by rw [List.length_replicate])
    (by rwa [Nat.zero_add]) hv hlane, hblank, Bool.false_or, Bool.eq_iff_iff, List.any_eq_true]
  constructor
  · rintro ⟨⟨v, k⟩, hmem, hk⟩
    simp only [Bool.and_eq_true, decide_eq_true_eq] at hk
    obtain ⟨⟨hmod, hle⟩, hbit⟩ := hk
    have hval : values[k]? = some v := List.mem_zipIdx_iff_getElem?.1 hmem
    -- a bit of the stream lies in one field only
    have hwidth : i / lanes * width + j - k / lanes * width < width := by
      by_contra hge
      rw [getLsbD_of_lt (hv v (List.mem_of_getElem? hval)) (not_lt.1 hge)] at hbit
      exact absurd hbit Bool.false_ne_true
    have hdiv : k / lanes = i / lanes := by
      apply le_antisymm
      · by_contra hlt
        have hmul : (i / lanes + 1) * width ≤ k / lanes * width :=
          Nat.mul_le_mul_right _ (not_le.1 hlt)
        rw [Nat.succ_mul] at hmul
        omega
      · by_contra hlt
        have hmul : (k / lanes + 1) * width ≤ i / lanes * width :=
          Nat.mul_le_mul_right _ (not_le.1 hlt)
        rw [Nat.succ_mul] at hmul
        omega
    have heq : k = i := by rw [← Nat.div_add_mod k lanes, ← Nat.div_add_mod i lanes, hdiv, hmod]
    subst heq
    rw [List.getElem?_eq_getElem hi, Option.some.injEq] at hval
    rw [Nat.add_sub_cancel_left] at hbit
    rw [hval]
    exact hbit
  · intro hbit
    refine ⟨(values[i], i), ?_, ?_⟩
    · rw [List.mem_zipIdx_iff_getElem?]
      exact List.getElem?_eq_getElem hi
    · simp [hbit]

/-! ### Unpacking -/

theorem length_flatMap_range {β : Type*} {m n : ℕ} {f : ℕ → ℕ → β} :
    ((List.range m).flatMap fun a => (List.range n).map (f a)).length = m * n := by
  induction m with
  | zero => simp
  | succ m ih => rw [List.range_succ, List.flatMap_append, List.length_append, ih]; simp; ring

theorem getElem?_flatMap_range {β : Type*} {m n : ℕ} {f : ℕ → ℕ → β} {i : ℕ} (hi : i < m * n) :
    ((List.range m).flatMap fun a => (List.range n).map (f a))[i]? = some (f (i / n) (i % n)) := by
  induction m with
  | zero => exact absurd hi (by rw [Nat.zero_mul]; exact Nat.not_lt_zero i)
  | succ m ih =>
      have hpos : 0 < n := by
        by_contra hzero
        rw [Nat.eq_zero_of_not_pos hzero, Nat.mul_zero] at hi
        exact Nat.not_lt_zero i hi
      rw [List.range_succ, List.flatMap_append]
      by_cases hlt : i < m * n
      · rw [List.getElem?_append_left (by rwa [length_flatMap_range]), ih hlt]
      · have hle := not_lt.1 hlt
        rw [Nat.succ_mul] at hi
        have hdiv : i / n = m := by
          apply Nat.div_eq_of_lt_le
          · exact hle
          · rw [Nat.succ_mul]
            exact hi
        have hmod : i % n = i - m * n := by
          have h := Nat.div_add_mod i n
          rw [hdiv, Nat.mul_comm] at h
          omega
        rw [List.getElem?_append_right (by rwa [length_flatMap_range]), length_flatMap_range,
          List.flatMap_cons, List.flatMap_nil, List.append_nil, List.getElem?_map,
          List.getElem?_range (by omega), hdiv, hmod]
        rfl

/-- The values that are read off a stream are the ones it holds. -/
theorem take_eq_of_bits {width : ℕ} {out values : List Word} (hlen : values.length ≤ out.length)
    (hv : ∀ v ∈ values, v.toNat < 2 ^ width)
    (hbits : ∀ i (hi : i < values.length), ∀ j, (out[i]).getLsbD j =
      (decide (j < width) && values[i].getLsbD j)) :
    out.take values.length = values := by
  apply List.ext_getElem
  · rw [List.length_take, Nat.min_eq_left hlen]
  · intro i hi hi'
    rw [List.getElem_take]
    apply BitVec.eq_of_getLsbD_eq
    intro j _
    rw [hbits i hi' j]
    by_cases hj : j < width
    · simp [hj]
    · simp [hj, getLsbD_of_lt (hv _ (List.getElem_mem hi')) (not_lt.1 hj)]

theorem length_packWords_zero {width : ℕ} (hw : width ≤ 64) (values : List Word) :
    8 * (packWords width 0 0 values).length = packedBytes width values.length := by
  rw [length_packWords hw 0 (by norm_num), packedBytes, Nat.zero_add, Nat.mul_comm]

theorem packedBytes_le {width count : ℕ} (h : count ≤ chunkLen) :
    packedBytes width count ≤ 128 * width := by
  have hmul : count * width ≤ 1024 * width := Nat.mul_le_mul_right _ h
  rw [packedBytes]
  omega

theorem packedBytes_full (width : ℕ) : packedBytes width chunkLen = 128 * width := by
  rw [packedBytes, chunkLen]
  omega

theorem length_pack {width : ℕ} (hw : width ≤ 64) {values : List Word} :
    (pack values width).length = packedBytes width values.length := by
  rw [pack]
  split
  · rename_i hzero
    rw [hzero, packedBytes, Nat.mul_zero]
    rfl
  · split
    · rename_i hfull
      rw [length_wordBytes, packTransposed, length_packTransposedFrom, List.length_replicate,
        hfull.2.2, lanes]
      ring
    · rw [length_wordBytes, length_packWords_zero hw]

theorem length_unpack (packed : Bytes) (width : ℕ) : (unpack packed width).length = chunkLen := by
  rw [unpack]
  split
  · rw [List.length_replicate]
  · split
    · rw [List.length_append, List.length_replicate, List.length_take]
      omega
    · simp only
      split
      · exact length_flatMap_range
      · exact length_flatMap_range

section

variable {width : ℕ} {values : List Word} (hcount : values.length ≤ chunkLen)
  (hv : ∀ v ∈ values, v.toNat < 2 ^ width)

include hcount hv

theorem unpackConst_packWords (hpos : 0 < width) (hw : width ≤ 64) :
    (unpackConst (packWords width 0 0 values) width).take values.length = values := by
  have hlen : (unpackConst (packWords width 0 0 values) width).length = chunkLen :=
    length_flatMap_range
  apply take_eq_of_bits (hcount.trans hlen.ge) hv
  intro i hi j
  have hfield : (unpackConst (packWords width 0 0 values) width)[i]? =
      some (fieldAt 1 0 width (packWords width 0 0 values) (i * width)) := by
    rw [unpackConst, getElem?_flatMap_range (lt_of_lt_of_le hi hcount), Option.some.injEq]
    have hsplit : i * width = 64 * (i / 64 * width) + i % 64 * width := by
      rw [← Nat.mul_assoc, ← Nat.add_mul, Nat.div_add_mod]
    have hdiv : i * width / 64 = i / 64 * width + i % 64 * width / 64 := by
      rw [hsplit, Nat.mul_add_div (by norm_num)]
    have hmod : i * width % 64 = i % 64 * width % 64 := by
      rw [hsplit, Nat.mul_add_mod]
    rw [fieldAt, hdiv, hmod, wordAt, wordAt]
    simp
  obtain ⟨hbound, hget⟩ := List.getElem?_eq_some_iff.1 hfield
  rw [hget, getLsbD_fieldAt hw]
  by_cases hj : j < width
  · rw [bitAt_packWords_zero hpos hw hv, sourceBit_mul_add hi hj]
  · simp [hj]

theorem unpackTransposed_packTransposed (hw : width ≤ 64) :
    (unpackTransposed (packTransposed values width) width).take values.length = values := by
  have hlen : (unpackTransposed (packTransposed values width) width).length = chunkLen :=
    length_flatMap_range
  apply take_eq_of_bits (hcount.trans hlen.ge) hv
  intro i hi j
  have hfield : (unpackTransposed (packTransposed values width) width)[i]? =
      some (fieldAt lanes (i % lanes) width (packTransposed values width) (i / lanes * width)) := by
    rw [unpackTransposed, getElem?_flatMap_range (lt_of_lt_of_le hi hcount)]
  obtain ⟨hbound, hget⟩ := List.getElem?_eq_some_iff.1 hfield
  rw [hget, getLsbD_fieldAt hw]
  by_cases hj : j < width
  · rw [bitAt_packTransposed hw hcount hv hi hj]
  · simp [hj]

omit hcount in
theorem packWords_whole (hw : width = 64) : packWords width 0 0 values = values := by
  have hlen : (packWords width 0 0 values).length = values.length := by
    rw [length_packWords hw.le 0 (by norm_num), hw]
    omega
  apply List.ext_getElem hlen
  intro i hi hi'
  apply BitVec.eq_of_getLsbD_eq
  intro j hj
  have hbit := bitAt_packWords_zero (by omega : 0 < width) hw.le hv (i * width + j)
  rw [sourceBit_mul_add hi' (by omega)] at hbit
  have hdiv : (i * width + j) / 64 = i := by
    rw [hw]
    omega
  have hmod : (i * width + j) % 64 = j := by
    rw [hw]
    omega
  rw [← hbit, bitAt, hdiv, hmod, wordAt, Nat.one_mul, Nat.add_zero, List.getD_eq_getElem _ _ hi]

/-- Packed values come back, whichever layout they were given. -/
theorem unpack_pack (hw : width ≤ 64) :
    (unpack (pack values width) width).take values.length = values := by
  by_cases hzero : width = 0
  · have hall : values = List.replicate values.length 0 := by
      rw [List.eq_replicate_iff]
      refine ⟨rfl, fun v hmem => BitVec.eq_of_toNat_eq ?_⟩
      have hlt := hv v hmem
      rw [hzero, pow_zero] at hlt
      exact Nat.lt_one_iff.1 hlt
    rw [unpack, if_pos hzero, List.take_replicate, Nat.min_eq_left hcount]
    exact hall.symm
  · have hpos := Nat.pos_of_ne_zero hzero
    by_cases hfull : 1 < width ∧ width < 64 ∧ packedBytes width values.length = 128 * width
    · have hwords : (packTransposed values width).length = lanes * width := by
        rw [packTransposed, length_packTransposedFrom, List.length_replicate]
      have hbytes : (wordBytes (packTransposed values width)).length = 128 * width := by
        rw [length_wordBytes, hwords, lanes]
        ring
      rw [pack, if_neg hzero, if_pos hfull, unpack, if_neg hzero, if_neg hfull.2.1.ne]
      simp only
      rw [if_pos ⟨hfull.1, hbytes⟩, wordsOf_wordBytes, ← hwords, List.take_length]
      exact unpackTransposed_packTransposed hcount hv hw
    · rw [pack, if_neg hzero, if_neg hfull, unpack, if_neg hzero]
      by_cases hwhole : width = 64
      · rw [if_pos hwhole, wordsOf_wordBytes]
        simp only
        rw [packWords_whole hv hwhole, List.take_of_length_le hcount,
          List.take_left' rfl]
      · have hbytes : (wordBytes (packWords width 0 0 values)).length =
            packedBytes width values.length := by
          rw [length_wordBytes, length_packWords_zero hw]
        have hnot : ¬ (1 < width ∧
            (wordBytes (packWords width 0 0 values)).length = 128 * width) := by
          rintro ⟨hone, heq⟩
          rw [hbytes] at heq
          exact hfull ⟨hone, lt_of_le_of_ne hw hwhole, heq⟩
        have hwords : (packWords width 0 0 values).length ≤ lanes * width := by
          have hlen := length_packWords_zero hw values
          have hle : packedBytes width values.length ≤ 128 * width := packedBytes_le hcount
          rw [lanes]
          omega
        rw [if_neg hwhole]
        simp only
        rw [if_neg hnot, wordsOf_wordBytes, List.take_of_length_le hwords]
        exact unpackConst_packWords hcount hv hpos hw

end

end Zu.Encoding
