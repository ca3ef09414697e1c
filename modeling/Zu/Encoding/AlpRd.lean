import Zu.Encoding.Bounded

/-!
# Real doubles

A double is its 64 bits, cut in a left part of at most sixteen bits and a right part.
A left part is the code of one of at most eight dictionary entries; the others are
exceptions, put back by position. The right parts are packed as they are. The header has
four bytes for the count and for how long the container of the positions is, and a
list comes back exactly when they hold both.
-/

namespace Zu.Encoding

open Lib ForBitpack

namespace AlpRd

def maxDict : ℕ := 8

def maxLeftBits : ℕ := 16

def corrupt (detail : String) : ZuError := .corrupt "alp_rd" detail

/-- The left part of a pattern, in sixteen bits. -/
def leftOf (rightBits : ℕ) (v : Word) : BitVec 16 := (v >>> rightBits).setWidth 16

/-- The pattern of a left and a right part. -/
def glue (rightBits : ℕ) (left : BitVec 16) (right : Word) : Word :=
  left.setWidth 64 <<< rightBits ||| right

/-- `build_dict`: the most frequent left parts; ties break on the value. -/
def buildDict (values : List Word) (rightBits : ℕ) : List (BitVec 16) :=
  let lefts := values.map (leftOf rightBits)
  (((lefts.dedup.map fun l => (l, lefts.count l)).insertionSort
    fun a b => b.2 < a.2 ∨ a.2 = b.2 ∧ a.1.toNat ≤ b.1.toNat).take maxDict).map Prod.fst

/-- Every `step`th value. -/
def stepBy (step : ℕ) (values : List Word) : List Word :=
  (values.zipIdx.filter fun p => p.2 % step = 0).map Prod.fst

/-- What the sample takes with a cut: a right part and a code each, and 48 bits for each
exception. -/
def score (sample : List Word) (rightBits : ℕ) : ℕ :=
  let dict := buildDict sample rightBits
  let exceptions := (sample.filter fun v => leftOf rightBits v ∉ dict).length
  let codeBits := bitsNeeded (BitVec.ofNat 64 (dict.length - 1))
  sample.length * (rightBits + codeBits) + exceptions * 48

/-- One turn of the loop of `choose_cut`: a cut that takes less than the best so far. -/
def keepBest (sample : List Word) (best : ℕ × ℕ) (leftBits : ℕ) : ℕ × ℕ :=
  if score sample (64 - leftBits) < best.2 then (64 - leftBits, score sample (64 - leftBits))
  else best

def chooseCut (values : List Word) : ℕ :=
  ((List.range' 1 maxLeftBits).foldl (keepBest (stepBy (max (values.length / 1024) 1) values))
    (64 - maxLeftBits, 2 ^ 64 - 1)).1

/-- The dictionary of `encode`; an empty input has one entry all the same. -/
def dictOf (values : List Word) (rightBits : ℕ) : List (BitVec 16) :=
  if buildDict values rightBits = [] then [0] else buildDict values rightBits

section

variable (rightBits : ℕ) (dict : List (BitVec 16))

/-- The code of a value; an exception has the first. -/
def codeOf (v : Word) : ℕ :=
  if leftOf rightBits v ∈ dict then dict.idxOf (leftOf rightBits v) else 0

def codes (values : List Word) : List Word :=
  values.map fun v => BitVec.ofNat 64 (codeOf rightBits dict v)

def rights (values : List Word) : List Word := values.map fun v => v &&& mask rightBits

/-- The values whose left part is no entry: where they are, and the left parts. -/
def exceptionsFrom : ℕ → List Word → List (ℕ × BitVec 16)
  | _, [] => []
  | i, v :: values =>
      if leftOf rightBits v ∈ dict then exceptionsFrom (i + 1) values
      else (i, leftOf rightBits v) :: exceptionsFrom (i + 1) values

def positions (values : List Word) : List Word :=
  (exceptionsFrom rightBits dict 0 values).map fun e => BitVec.ofNat 64 e.1

def positionsBuf (values : List Word) : Bytes := ForBitpack.encode (positions rightBits dict values)

def codesBuf (values : List Word) : Bytes := ForBitpack.encode (codes rightBits dict values)

/-- Sixteen-bit numbers, each little-endian. -/
def shortBytes (ls : List (BitVec 16)) : Bytes := ls.flatMap fun l => leBytes 2 l.toNat

/-- What `encode` writes with a cut and a dictionary. -/
def encodeWith (values : List Word) : Bytes :=
  (leBytes 4 values.length ++ (leBytes 1 rightBits ++ leBytes 1 dict.length)) ++
    (shortBytes dict ++
      ((leBytes 4 (exceptionsFrom rightBits dict 0 values).length ++
          leBytes 4 (positionsBuf rightBits dict values).length) ++
        (positionsBuf rightBits dict values ++
          (shortBytes ((exceptionsFrom rightBits dict 0 values).map Prod.snd) ++
            (leBytes 4 (codesBuf rightBits dict values).length ++
              (codesBuf rightBits dict values ++
                ForBitpack.encode (rights rightBits values)))))))

end

/-- `alp_rd::encode`. Its header has four bytes for the count, and four for how long
the container of the positions is. -/
def encode (values : List Word) : Bytes :=
  encodeWith (chooseCut values) (dictOf values (chooseCut values)) values

/-- The whole sixteen-bit numbers of some bytes. -/
def shorts : Bytes → List (BitVec 16)
  | a :: b :: bytes => BitVec.ofNat 16 (fromLe [a, b]) :: shorts bytes
  | _ => []

/-- What a buffer has before the right parts. -/
structure Parts where
  count : ℕ
  rightBits : ℕ
  dict : List (BitVec 16)
  excCount : ℕ
  positions : Bytes
  lefts : List (BitVec 16)
  codes : Bytes

/-- The checks of `decode` up to the right parts. -/
def readParts (maxValues : ℕ) : Reader ZuError Parts := do
  let header ← takeBytes 6 (corrupt "truncated header")
  let count := fromLe (header.take 4)
  let rightBits := fromLe ((header.drop 4).take 1)
  let dictLen := fromLe (header.drop 5)
  rejectIf (maxValues < count) (corrupt "count above the caller ceiling")
  rejectIf (¬ (48 ≤ rightBits ∧ rightBits ≤ 63)) (corrupt "cut outside 48..=63 right bits")
  rejectIf (dictLen = 0 ∨ maxDict < dictLen) (corrupt "dictionary size outside 1..=8")
  let dict ← takeBytes (dictLen * 2) (corrupt "truncated dictionary")
  let head ← takeBytes 8 (corrupt "truncated exception header")
  let excCount := fromLe (head.take 4)
  rejectIf (count < excCount) (corrupt "more exceptions than values")
  let positions ← takeBytes (fromLe (head.drop 4)) (corrupt "truncated positions")
  let lefts ← takeBytes (excCount * 2) (corrupt "truncated exception lefts")
  let codesHead ← takeBytes 4 (corrupt "truncated code header")
  let codes ← takeBytes (fromLe codesHead) (corrupt "truncated codes")
  return { count, rightBits, dict := shorts dict, excCount, positions, lefts := shorts lefts, codes }

/-- What the pass over the two streams has made: the output, the largest code, and every
bit of the right parts. -/
structure Combined where
  out : List Word
  maxCode : Word
  stray : Word

/-- What the pass makes of one code and one right part. A code past the dictionary reads
the padding. -/
def Combined.push (rightBits : ℕ) (dict : List (BitVec 16)) (s : Combined) (p : Word × Word) :
    Combined :=
  { out := s.out ++ [glue rightBits (dict.getD (p.1 &&& 7).toNat 0) p.2]
    maxCode := if s.maxCode < p.1 then p.1 else s.maxCode
    stray := s.stray ||| p.2 }

/-- Puts the left parts of the exceptions back. -/
def putBack (rightBits : ℕ) (out : List Word) (excs : List (Word × BitVec 16)) : List Word :=
  excs.foldl
    (fun out e => out.set e.1.toNat (glue rightBits e.2 (out.getD e.1.toNat 0 &&& mask rightBits)))
    out

/-- The checks of `decode` on the streams, and the pass over them. -/
def combine (p : Parts) (rights : Bytes) : Except ZuError (List Word) := do
  let positions ← ForBitpack.decode p.positions p.excCount
  if positions.length ≠ p.excCount then .error (corrupt "position stream length mismatch")
  else if positions.any (fun pos => p.count ≤ pos.toNat) then
    .error (corrupt "position past the value count")
  else do
    let codes ← ChunkCursor.new p.codes p.count
    let rights ← ChunkCursor.new rights p.count
    if codes.count ≠ p.count then .error (corrupt "code stream length mismatch")
    else if rights.count ≠ p.count then .error (corrupt "right stream length mismatch")
    else do
      let s ← lockstep (corrupt "right stream ended early")
        (fun s ps => .ok (ps.foldl (Combined.push p.rightBits p.dict) s))
        codes.remaining codes rights { out := [], maxCode := 0, stray := 0 }
      if p.dict.length ≤ s.maxCode.toNat then .error (corrupt "code past the dictionary")
      else if s.stray &&& ~~~ mask p.rightBits ≠ 0 then
        .error (corrupt "right part wider than the cut")
      else .ok (putBack p.rightBits s.out (positions.zip p.lefts))

/-- `alp_rd::decode`: the patterns it appends to `out`. -/
def decode (bytes : Bytes) (maxValues : ℕ) : Except ZuError (List Word) := do
  let found ← readParts maxValues bytes
  combine found.1 found.2

/-! ### The two parts of a pattern -/

theorem getLsbD_leftOf {rightBits : ℕ} (v : Word) (j : ℕ) :
    (leftOf rightBits v).getLsbD j = (decide (j < 16) && v.getLsbD (rightBits + j)) := by
  rw [leftOf, BitVec.getLsbD_setWidth, BitVec.getLsbD_ushiftRight]

theorem glue_leftOf {rightBits : ℕ} (hcut : 48 ≤ rightBits) (hle : rightBits ≤ 64) (v : Word) :
    glue rightBits (leftOf rightBits v) (v &&& mask rightBits) = v := by
  apply BitVec.eq_of_getLsbD_eq
  intro j hj
  rw [glue, BitVec.getLsbD_or, BitVec.getLsbD_shiftLeft, BitVec.getLsbD_setWidth,
    getLsbD_leftOf, BitVec.getLsbD_and, getLsbD_mask hle]
  by_cases hlow : j < rightBits
  · simp [hj, hlow]
  · have hj' : j - rightBits < 16 := by omega
    have hback : rightBits + (j - rightBits) = j := by omega
    simp [hj, hlow, hj', hback]
    omega

theorem glue_and_mask {rightBits : ℕ} (hle : rightBits ≤ 64) (left : BitVec 16) (v : Word) :
    glue rightBits left (v &&& mask rightBits) &&& mask rightBits = v &&& mask rightBits := by
  apply BitVec.eq_of_getLsbD_eq
  intro j hj
  rw [glue, BitVec.getLsbD_and, BitVec.getLsbD_or, BitVec.getLsbD_shiftLeft,
    BitVec.getLsbD_and, getLsbD_mask hle]
  by_cases hlow : j < rightBits
  · simp [hlow]
  · simp [hlow]

/-! ### The cut and the dictionary -/

theorem chooseCut_mem (values : List Word) : 48 ≤ chooseCut values ∧ chooseCut values ≤ 63 := by
  have hfold : ∀ (sample : List Word) (widths : List ℕ) (best : ℕ × ℕ),
      (∀ w ∈ widths, 1 ≤ w ∧ w ≤ maxLeftBits) → 48 ≤ best.1 ∧ best.1 ≤ 63 →
        48 ≤ (widths.foldl (keepBest sample) best).1 ∧
          (widths.foldl (keepBest sample) best).1 ≤ 63 := by
    intro sample widths
    induction widths with
    | nil => exact fun best _ h => h
    | cons w widths ih =>
        intro best hwidths h
        apply ih _ fun w' hw' => hwidths w' (List.mem_cons_of_mem w hw')
        have hw := hwidths w List.mem_cons_self
        rw [maxLeftBits] at hw
        rw [keepBest]
        split_ifs
        · simp only []
          omega
        · exact h
  apply hfold
  · intro w hw
    rw [List.mem_range'_1] at hw
    rw [maxLeftBits] at hw ⊢
    omega
  · decide

theorem length_dictOf (values : List Word) (rightBits : ℕ) :
    1 ≤ (dictOf values rightBits).length ∧ (dictOf values rightBits).length ≤ maxDict := by
  rw [dictOf]
  split_ifs with hnil
  · decide
  · constructor
    · exact List.length_pos_of_ne_nil hnil
    · rw [buildDict, List.length_map, List.length_take]
      exact min_le_left _ _

/-! ### The parts of a list -/

theorem shorts_shortBytes (ls : List (BitVec 16)) : shorts (shortBytes ls) = ls := by
  induction ls with
  | nil => rfl
  | cons l ls ih =>
      have htwo : leBytes 2 l.toNat = [UInt8.ofNat l.toNat, UInt8.ofNat (l.toNat / 256)] := rfl
      have hback : fromLe (leBytes 2 l.toNat) = l.toNat := fromLe_leBytes_of_lt l.isLt
      rw [shortBytes, List.flatMap_cons, htwo, List.cons_append, List.cons_append,
        List.nil_append, shorts, ← htwo, hback, BitVec.ofNat_toNat, BitVec.setWidth_eq]
      exact congrArg (l :: ·) ih

theorem length_shortBytes (ls : List (BitVec 16)) : (shortBytes ls).length = ls.length * 2 := by
  induction ls with
  | nil => rfl
  | cons l ls ih =>
      rw [shortBytes, List.flatMap_cons, List.length_append, length_leBytes, List.length_cons]
      change 2 + (shortBytes ls).length = _
      rw [ih]
      omega

section

variable {rightBits : ℕ} {dict : List (BitVec 16)}

theorem codeOf_lt (hdict : 1 ≤ dict.length) (v : Word) : codeOf rightBits dict v < dict.length := by
  rw [codeOf]
  split_ifs with hmem
  · exact List.idxOf_lt_length_of_mem hmem
  · exact hdict

theorem toNat_code (hdict : 1 ≤ dict.length) (hmax : dict.length ≤ maxDict) (v : Word) :
    (BitVec.ofNat 64 (codeOf rightBits dict v)).toNat = codeOf rightBits dict v := by
  have hlt : codeOf rightBits dict v < dict.length := codeOf_lt hdict v
  rw [maxDict] at hmax
  rw [BitVec.toNat_ofNat, Nat.mod_eq_of_lt (by omega)]

theorem length_exceptionsFrom_le (i : ℕ) (values : List Word) :
    (exceptionsFrom rightBits dict i values).length ≤ values.length := by
  induction values generalizing i with
  | nil => exact le_rfl
  | cons v values ih =>
      rw [exceptionsFrom]
      split_ifs
      · exact (ih _).trans (Nat.le_succ _)
      · exact Nat.succ_le_succ (ih _)

theorem lt_of_mem_exceptionsFrom {i : ℕ} {values : List Word} {e : ℕ × BitVec 16}
    (h : e ∈ exceptionsFrom rightBits dict i values) : e.1 < i + values.length := by
  induction values generalizing i with
  | nil => exact absurd h List.not_mem_nil
  | cons v values ih =>
      rw [exceptionsFrom] at h
      rw [List.length_cons]
      split_ifs at h
      · have := ih h
        omega
      · rcases List.mem_cons.1 h with rfl | h
        · simp only []
          omega
        · have := ih h
          omega

/-- The pattern that the pass makes of a value: its own where its left part is an entry. -/
def firstOf (rightBits : ℕ) (dict : List (BitVec 16)) (v : Word) : Word :=
  glue rightBits (dict.getD (BitVec.ofNat 64 (codeOf rightBits dict v) &&& 7).toNat 0)
    (v &&& mask rightBits)

theorem and_seven {n : ℕ} (h : n < 8) : (BitVec.ofNat 64 n &&& 7).toNat = n := by
  have hmask : (7 : Word).toNat = 2 ^ 3 - 1 := rfl
  rw [BitVec.toNat_and, hmask, Nat.and_two_pow_sub_one_eq_mod, BitVec.toNat_ofNat,
    Nat.mod_eq_of_lt (show n < 2 ^ 64 by omega), Nat.mod_eq_of_lt h]

theorem firstOf_of_mem (hcut : 48 ≤ rightBits) (hle : rightBits ≤ 64)
    (hmax : dict.length ≤ maxDict) {v : Word} (h : leftOf rightBits v ∈ dict) :
    firstOf rightBits dict v = v := by
  have hlt := List.idxOf_lt_length_of_mem h
  have hget : dict.getD (dict.idxOf (leftOf rightBits v)) 0 = leftOf rightBits v := by
    rw [List.getD_eq_getElem?_getD, List.getElem?_eq_getElem hlt, Option.getD_some,
      List.getElem_idxOf hlt]
  rw [firstOf, codeOf, if_pos h, and_seven (hlt.trans_le hmax), hget, glue_leftOf hcut hle]

/-- The exceptions go back where they were. The induction is on the values, over what is
in place already. -/
theorem putBack_exceptionsFrom (hcut : 48 ≤ rightBits) (hle : rightBits ≤ 64)
    (hmax : dict.length ≤ maxDict) (done values : List Word)
    (hlen : done.length + values.length < 2 ^ 64) :
    putBack rightBits (done ++ values.map (firstOf rightBits dict))
        ((exceptionsFrom rightBits dict done.length values).map
          fun e => (BitVec.ofNat 64 e.1, e.2)) = done ++ values := by
  induction values generalizing done with
  | nil => rfl
  | cons v values ih =>
      rw [List.length_cons] at hlen
      have hnext := ih (done ++ [v]) (by
        rw [List.length_append, List.length_singleton]
        omega)
      rw [List.length_append, List.length_singleton, List.append_assoc, List.append_assoc,
        List.singleton_append, List.singleton_append] at hnext
      rw [exceptionsFrom, List.map_cons]
      split_ifs with hmem
      · rw [firstOf_of_mem hcut hle hmax hmem]
        exact hnext
      · have hpos : (BitVec.ofNat 64 done.length).toNat = done.length := by
          rw [BitVec.toNat_ofNat, Nat.mod_eq_of_lt (by omega)]
        have hget : (done ++ firstOf rightBits dict v :: values.map (firstOf rightBits dict)).getD
            done.length 0 = firstOf rightBits dict v := by
          rw [List.getD_eq_getElem?_getD, List.getElem?_append_right le_rfl, Nat.sub_self,
            List.getElem?_cons_zero, Option.getD_some]
        have hback : glue rightBits (leftOf rightBits v)
            (firstOf rightBits dict v &&& mask rightBits) = v := by
          rw [firstOf, glue_and_mask hle, glue_leftOf hcut hle]
        rw [List.map_cons, putBack, List.foldl_cons]
        simp only [hpos]
        rw [hget, hback, List.set_append_right _ _ le_rfl, Nat.sub_self, List.set_cons_zero]
        exact hnext

/-! ### The pass over the two streams -/

theorem out_foldl_push (s : Combined) (ps : List (Word × Word)) :
    (ps.foldl (Combined.push rightBits dict) s).out =
      s.out ++ ps.map fun p => glue rightBits (dict.getD (p.1 &&& 7).toNat 0) p.2 := by
  induction ps generalizing s with
  | nil => rw [List.map_nil, List.append_nil, List.foldl_nil]
  | cons p ps ih =>
      rw [List.foldl_cons, ih, List.map_cons, Combined.push, List.append_assoc,
        List.singleton_append]

theorem maxCode_foldl_push {n : ℕ} (s : Combined) (hs : s.maxCode.toNat < n)
    (ps : List (Word × Word)) (h : ∀ p ∈ ps, p.1.toNat < n) :
    (ps.foldl (Combined.push rightBits dict) s).maxCode.toNat < n := by
  induction ps generalizing s with
  | nil => exact hs
  | cons p ps ih =>
      rw [List.foldl_cons]
      apply ih
      · rw [Combined.push]
        split_ifs
        · exact h p List.mem_cons_self
        · exact hs
      · exact fun q hq => h q (List.mem_cons_of_mem p hq)

theorem stray_foldl_push {m : Word} (s : Combined) (hs : s.stray &&& m = 0)
    (ps : List (Word × Word)) (h : ∀ p ∈ ps, p.2 &&& m = 0) :
    (ps.foldl (Combined.push rightBits dict) s).stray &&& m = 0 := by
  induction ps generalizing s with
  | nil => exact hs
  | cons p ps ih =>
      rw [List.foldl_cons]
      apply ih
      · rw [Combined.push]
        simp only []
        rw [BitVec.and_or_distrib_right, hs, h p List.mem_cons_self, BitVec.or_self]
      · exact fun q hq => h q (List.mem_cons_of_mem p hq)

end

/-! ### Reading back what was written -/

section

variable {rightBits : ℕ} {dict : List (BitVec 16)} {values : List Word}

/-- What a buffer of `values` has before the right parts. -/
def partsOf (rightBits : ℕ) (dict : List (BitVec 16)) (values : List Word) : Parts :=
  { count := values.length
    rightBits
    dict
    excCount := (exceptionsFrom rightBits dict 0 values).length
    positions := positionsBuf rightBits dict values
    lefts := (exceptionsFrom rightBits dict 0 values).map Prod.snd
    codes := codesBuf rightBits dict values }

theorem length_codesBuf_lt (hdict : 1 ≤ dict.length) (hmax : dict.length ≤ maxDict)
    (hcount : values.length < 2 ^ 32) : (codesBuf rightBits dict values).length < 2 ^ 32 := by
  have hcodes : ∀ v ∈ codes rightBits dict values, v.toNat ≤ 7 := by
    intro v hv
    obtain ⟨x, -, rfl⟩ := List.mem_map.1 hv
    have hlt : codeOf rightBits dict x < dict.length := codeOf_lt hdict x
    rw [toNat_code hdict hmax]
    rw [maxDict] at hmax
    omega
  have hlen := length_encode_le_max (show 7 < 2 ^ 64 by decide) hcodes
  have hwidth : bitsNeeded (BitVec.ofNat 64 7) = 3 := by decide
  rw [codes, List.length_map, hwidth, forBytes, packedBytes, chunkLen] at hlen
  change (ForBitpack.encode (codes rightBits dict values)).length < _
  rw [codes]
  omega

theorem readParts_encodeWith (hcut : 48 ≤ rightBits ∧ rightBits ≤ 63) (hdict : 1 ≤ dict.length)
    (hmax : dict.length ≤ maxDict) (hcount : values.length < 2 ^ 32)
    (hfits : (positionsBuf rightBits dict values).length < 2 ^ 32) {maxValues : ℕ}
    (hceiling : values.length ≤ maxValues) :
    readParts maxValues (encodeWith rightBits dict values) =
      .ok (partsOf rightBits dict values, ForBitpack.encode (rights rightBits values)) := by
  have hexc : (exceptionsFrom rightBits dict 0 values).length ≤ values.length :=
    length_exceptionsFrom_le 0 values
  have hcodes : (codesBuf rightBits dict values).length < 2 ^ 32 :=
    length_codesBuf_lt hdict hmax hcount
  rw [maxDict] at hmax
  have hdecodes : Decodes (readParts maxValues)
      ((leBytes 4 values.length ++ (leBytes 1 rightBits ++ leBytes 1 dict.length)) ++
        ([] ++ ([] ++ ([] ++ (shortBytes dict ++
          ((leBytes 4 (exceptionsFrom rightBits dict 0 values).length ++
              leBytes 4 (positionsBuf rightBits dict values).length) ++
            ([] ++ (positionsBuf rightBits dict values ++
              (shortBytes ((exceptionsFrom rightBits dict 0 values).map Prod.snd) ++
                (leBytes 4 (codesBuf rightBits dict values).length ++
                  codesBuf rightBits dict values))))))))))
      (partsOf rightBits dict values) := by
    have hfour : ∀ n, (leBytes 4 n).length = 4 := length_leBytes 4
    rw [readParts]
    apply (decodes_takeBytes (by simp) _).bind
    have h0 : fromLe ((leBytes 4 values.length ++
        (leBytes 1 rightBits ++ leBytes 1 dict.length)).take 4) = values.length := by
      rw [List.take_left' (hfour _), fromLe_leBytes_of_lt (by omega)]
    have h1 : fromLe (((leBytes 4 values.length ++
        (leBytes 1 rightBits ++ leBytes 1 dict.length)).drop 4).take 1) = rightBits := by
      rw [List.drop_left' (hfour _), List.take_left' (length_leBytes 1 _),
        fromLe_leBytes_of_lt (by omega)]
    have h2 : fromLe ((leBytes 4 values.length ++
        (leBytes 1 rightBits ++ leBytes 1 dict.length)).drop 5) = dict.length := by
      rw [← List.append_assoc, List.drop_left' (by simp), fromLe_leBytes_of_lt (by omega)]
    simp only [h0, h1, h2]
    apply (decodes_rejectIf (by omega) _).bind
    apply (decodes_rejectIf (by omega) _).bind
    apply (decodes_rejectIf (by rw [maxDict]; omega) _).bind
    apply (decodes_takeBytes (length_shortBytes dict) _).bind
    apply (decodes_takeBytes (by simp) _).bind
    have h3 : fromLe ((leBytes 4 (exceptionsFrom rightBits dict 0 values).length ++
        leBytes 4 (positionsBuf rightBits dict values).length).take 4) =
          (exceptionsFrom rightBits dict 0 values).length := by
      rw [List.take_left' (hfour _), fromLe_leBytes_of_lt (by omega)]
    have h4 : fromLe ((leBytes 4 (exceptionsFrom rightBits dict 0 values).length ++
        leBytes 4 (positionsBuf rightBits dict values).length).drop 4) =
          (positionsBuf rightBits dict values).length := by
      rw [List.drop_left' (hfour _), fromLe_leBytes_of_lt (by omega)]
    simp only [h3, h4]
    apply (decodes_rejectIf (by omega) _).bind
    apply (decodes_takeBytes rfl _).bind
    apply (decodes_takeBytes (by rw [length_shortBytes, List.length_map]) _).bind
    apply (decodes_takeBytes (hfour _) _).bind
    rw [fromLe_leBytes_of_lt (show (codesBuf rightBits dict values).length < 256 ^ 4 by omega)]
    refine (decodes_takeBytes rfl _).bind_pure ?_
    rw [shorts_shortBytes, shorts_shortBytes, partsOf]
  have h := hdecodes (ForBitpack.encode (rights rightBits values))
  simp only [List.nil_append, List.append_assoc] at h
  simp only [encodeWith, List.append_assoc]
  exact h

/-- What passes every check of `decode` is combined and put back. -/
theorem combine_eq {p : Parts} {rights : Bytes} {positions : List Word} {c r : ChunkCursor}
    {s : Combined} (hpositions : ForBitpack.decode p.positions p.excCount = .ok positions)
    (hlen : positions.length = p.excCount) (hinside : ∀ pos ∈ positions, pos.toNat < p.count)
    (hcodes : ChunkCursor.new p.codes p.count = .ok c) (hcount : c.count = p.count)
    (hrights : ChunkCursor.new rights p.count = .ok r) (hcount' : r.count = p.count)
    (hpass : lockstep (corrupt "right stream ended early")
      (fun s ps => .ok (ps.foldl (Combined.push p.rightBits p.dict) s)) c.remaining c r
      { out := [], maxCode := 0, stray := 0 } = .ok s)
    (hmaxCode : s.maxCode.toNat < p.dict.length) (hstray : s.stray &&& ~~~ mask p.rightBits = 0) :
    combine p rights = .ok (putBack p.rightBits s.out (positions.zip p.lefts)) := by
  have hany : ¬ positions.any (fun pos => p.count ≤ pos.toNat) = true := by
    intro hany
    obtain ⟨pos, hpos, hover⟩ := List.any_eq_true.1 hany
    exact absurd (of_decide_eq_true hover) (not_le.2 (hinside pos hpos))
  rw [combine, hpositions, ok_bind, if_neg (not_not.2 hlen), if_neg hany, hcodes, ok_bind,
    hrights, ok_bind, if_neg (not_not.2 hcount), if_neg (not_not.2 hcount'), hpass, ok_bind,
    if_neg (not_le.2 hmaxCode), if_neg (not_not.2 hstray)]

theorem combine_partsOf (hcut : 48 ≤ rightBits ∧ rightBits ≤ 63) (hdict : 1 ≤ dict.length)
    (hmax : dict.length ≤ maxDict) (hcount : values.length < 2 ^ 32) :
    combine (partsOf rightBits dict values) (ForBitpack.encode (rights rightBits values)) =
      .ok values := by
  have hexc : (exceptionsFrom rightBits dict 0 values).length ≤ values.length :=
    length_exceptionsFrom_le 0 values
  have hpositions : (positions rightBits dict values).length =
      (exceptionsFrom rightBits dict 0 values).length := List.length_map _
  have hcodes : (codes rightBits dict values).length = values.length := List.length_map _
  have hrights : (rights rightBits values).length = values.length := List.length_map _
  have hread := @ForBitpack.decode_encode (positions rightBits dict values) (by omega) []
    (exceptionsFrom rightBits dict 0 values).length hpositions.le
  have hfirst := @new_encode (codes rightBits dict values) (by omega) [] values.length hcodes.le
  have hsecond := @new_encode (rights rightBits values) (by omega) [] values.length hrights.le
  rw [List.append_nil] at hread hfirst hsecond
  have hinside : ∀ pos ∈ positions rightBits dict values, pos.toNat < values.length := by
    intro pos hpos
    obtain ⟨e, he, rfl⟩ := List.mem_map.1 hpos
    have hlt := lt_of_mem_exceptionsFrom he
    rw [BitVec.toNat_ofNat, Nat.mod_eq_of_lt (by omega)]
    omega
  have hstep := @lockstep_cursorAt Combined (corrupt "right stream ended early")
    (fun s ps => .ok (ps.foldl (Combined.push rightBits dict) s)) (fun _ => rfl)
    (fun s ps qs => by rw [List.foldl_append]; rfl) (codes rightBits dict values).length
    (rights rightBits values).length _ _ (hcodes.trans hrights.symm) [] [] _ le_rfl
    { out := [], maxCode := 0, stray := 0 }
  have hpairs : (codes rightBits dict values).zip (rights rightBits values) =
      values.map fun v => (BitVec.ofNat 64 (codeOf rightBits dict v), v &&& mask rightBits) := by
    rw [codes, rights, List.zip_map']
  rw [hpairs] at hstep
  set s := (values.map fun v =>
    (BitVec.ofNat 64 (codeOf rightBits dict v), v &&& mask rightBits)).foldl
      (Combined.push rightBits dict) { out := [], maxCode := 0, stray := 0 } with hs
  have hout : s.out = values.map (firstOf rightBits dict) := by
    rw [hs, out_foldl_push, List.nil_append, List.map_map]
    rfl
  have hmaxCode : s.maxCode.toNat < dict.length := by
    apply maxCode_foldl_push
    · exact hdict
    · intro p hp
      obtain ⟨v, -, rfl⟩ := List.mem_map.1 hp
      rw [toNat_code hdict hmax]
      exact codeOf_lt hdict v
  have hstray : s.stray &&& ~~~ mask rightBits = 0 := by
    apply stray_foldl_push
    · exact BitVec.zero_and
    · intro p hp
      obtain ⟨v, -, rfl⟩ := List.mem_map.1 hp
      simp only []
      rw [BitVec.and_assoc, BitVec.and_not_self]
      exact BitVec.and_zero
  have hback := putBack_exceptionsFrom hcut.1 (hcut.2.trans (by decide)) hmax [] values (by
    rw [List.length_nil]
    omega)
  have hzip : (positions rightBits dict values).zip
      ((exceptionsFrom rightBits dict 0 values).map Prod.snd) =
        (exceptionsFrom rightBits dict 0 values).map fun e => (BitVec.ofNat 64 e.1, e.2) := by
    rw [positions, List.zip_map']
  have hdone := @combine_eq (partsOf rightBits dict values) (ForBitpack.encode (rights rightBits values))
    _ _ _ s hread hpositions hinside hfirst hcodes hsecond hrights hstep hmaxCode hstray
  rw [hdone, hout]
  simp only [partsOf, hzip]
  exact congrArg Except.ok hback

theorem decode_encodeWith (hcut : 48 ≤ rightBits ∧ rightBits ≤ 63) (hdict : 1 ≤ dict.length)
    (hmax : dict.length ≤ maxDict) (hcount : values.length < 2 ^ 32)
    (hfits : (positionsBuf rightBits dict values).length < 2 ^ 32) {maxValues : ℕ}
    (hceiling : values.length ≤ maxValues) :
    decode (encodeWith rightBits dict values) maxValues = .ok values := by
  rw [decode, readParts_encodeWith hcut hdict hmax hcount hfits hceiling, ok_bind]
  exact combine_partsOf hcut hdict hmax hcount

/-! ### Buffers whose header lost something -/

/-- What `decode` takes for the positions is the start of the container of them. -/
theorem readParts_positions (hmax : dict.length ≤ maxDict)
    (hcount : values.length < 2 ^ 32) {maxValues : ℕ} {found : Parts × Bytes}
    (h : readParts maxValues (encodeWith rightBits dict values) = .ok found) :
    found.1.positions = (positionsBuf rightBits dict values).take
      ((positionsBuf rightBits dict values).length % 2 ^ 32) := by
  have hexc : (exceptionsFrom rightBits dict 0 values).length ≤ values.length :=
    length_exceptionsFrom_le 0 values
  have hfour : ∀ n, (leBytes 4 n).length = 4 := length_leBytes 4
  have htake : (encodeWith rightBits dict values).take 6 =
      leBytes 4 values.length ++ (leBytes 1 rightBits ++ leBytes 1 dict.length) := by
    rw [encodeWith, List.take_left' (by simp)]
  have hdrop : (encodeWith rightBits dict values).drop 6 = shortBytes dict ++
      ((leBytes 4 (exceptionsFrom rightBits dict 0 values).length ++
          leBytes 4 (positionsBuf rightBits dict values).length) ++
        (positionsBuf rightBits dict values ++
          (shortBytes ((exceptionsFrom rightBits dict 0 values).map Prod.snd) ++
            (leBytes 4 (codesBuf rightBits dict values).length ++
              (codesBuf rightBits dict values ++
                ForBitpack.encode (rights rightBits values)))))) := by
    rw [encodeWith, List.drop_left' (by simp)]
  rw [maxDict] at hmax
  rw [readParts] at h
  obtain ⟨header, bs, hheader, h⟩ := reader_bind_ok.1 h
  cases (takeBytes_ok.1 hheader).2
  rw [htake, hdrop] at h
  have hdictLen : fromLe ((leBytes 4 values.length ++
      (leBytes 1 rightBits ++ leBytes 1 dict.length)).drop 5) = dict.length := by
    rw [← List.append_assoc, List.drop_left' (by simp), fromLe_leBytes_of_lt (by omega)]
  have hfirst : fromLe ((leBytes 4 values.length ++
      (leBytes 1 rightBits ++ leBytes 1 dict.length)).take 4) = values.length := by
    rw [List.take_left' (hfour _), fromLe_leBytes_of_lt (by omega)]
  simp only [hdictLen, hfirst] at h
  obtain ⟨u, bs, hreject, h⟩ := reader_bind_ok.1 h
  cases (rejectIf_ok.1 hreject).2
  obtain ⟨u, bs, hreject, h⟩ := reader_bind_ok.1 h
  cases (rejectIf_ok.1 hreject).2
  obtain ⟨u, bs, hreject, h⟩ := reader_bind_ok.1 h
  cases (rejectIf_ok.1 hreject).2
  obtain ⟨dictBytes, bs, hdict, h⟩ := reader_bind_ok.1 h
  cases (takeBytes_ok.1 hdict).2
  rw [List.drop_left' (length_shortBytes dict)] at h
  obtain ⟨head, bs, hhead, h⟩ := reader_bind_ok.1 h
  cases (takeBytes_ok.1 hhead).2
  have htwo : ∀ a b, (leBytes 4 a ++ leBytes 4 b).length = 8 := fun a b => by simp
  rw [List.take_left' (htwo _ _), List.drop_left' (htwo _ _)] at h
  have hsize : fromLe ((leBytes 4 (exceptionsFrom rightBits dict 0 values).length ++
      leBytes 4 (positionsBuf rightBits dict values).length).drop 4) =
        (positionsBuf rightBits dict values).length % 2 ^ 32 := by
    rw [List.drop_left' (hfour _), fromLe_leBytes, show 256 ^ 4 = 2 ^ 32 by decide]
  simp only [hsize] at h
  obtain ⟨u, bs, hreject, h⟩ := reader_bind_ok.1 h
  cases (rejectIf_ok.1 hreject).2
  obtain ⟨positions, bs, hpositions, h⟩ := reader_bind_ok.1 h
  cases (takeBytes_ok.1 hpositions).2
  obtain ⟨lefts, bs, -, h⟩ := reader_bind_ok.1 h
  obtain ⟨codesHead, bs, -, h⟩ := reader_bind_ok.1 h
  obtain ⟨codes, bs, -, h⟩ := reader_bind_ok.1 h
  cases reader_pure_ok.1 h
  exact List.take_append_of_le_length (Nat.mod_le _ _)

/-- A buffer whose positions are longer than its header can tell is refused. -/
theorem decode_encodeWith_cut (hmax : dict.length ≤ maxDict) (hcount : values.length < 2 ^ 32)
    (hover : 2 ^ 32 ≤ (positionsBuf rightBits dict values).length) (maxValues : ℕ) :
    ∃ e, decode (encodeWith rightBits dict values) maxValues = .error e := by
  rw [decode]
  cases hparts : readParts maxValues (encodeWith rightBits dict values) with
  | error e => exact ⟨e, rfl⟩
  | ok found =>
      have hexc : (exceptionsFrom rightBits dict 0 values).length ≤ values.length :=
        length_exceptionsFrom_le 0 values
      have hshort : (positionsBuf rightBits dict values).length % 2 ^ 32 <
          (positionsBuf rightBits dict values).length :=
        (Nat.mod_lt _ (by decide)).trans_le hover
      have hlen : (positions rightBits dict values).length < 2 ^ 32 := by
        rw [positions, List.length_map]
        omega
      obtain ⟨e, he⟩ := ForBitpack.decode_short hlen hshort found.1.excCount
      change ForBitpack.decode ((positionsBuf rightBits dict values).take _) _ = _ at he
      refine ⟨e, ?_⟩
      rw [ok_bind, combine, readParts_positions hmax hcount hparts, he]
      rfl

end

theorem out_lockstep (rightBits : ℕ) (dict : List (BitVec 16)) {early : ZuError} {fuel : ℕ}
    {c r : ChunkCursor} {s s' : Combined}
    (h : lockstep early (fun s ps => .ok (ps.foldl (Combined.push rightBits dict) s)) fuel c r s =
      .ok s') : s'.out.length ≤ s.out.length + c.remaining := by
  induction fuel generalizing c r s with
  | zero =>
      cases h
      exact Nat.le_add_right _ _
  | succ fuel ih =>
      rw [lockstep] at h
      obtain ⟨⟨chunk, c'⟩, hnext, h⟩ := except_bind_ok.1 h
      cases chunk with
      | none =>
          cases h
          exact Nat.le_add_right _ _
      | some chunk =>
          obtain ⟨min, scratch, take⟩ := chunk
          obtain ⟨⟨chunk', r'⟩, -, h⟩ := except_bind_ok.1 h
          cases chunk' with
          | none => cases h
          | some chunk' =>
              obtain ⟨min', scratch', take'⟩ := chunk'
              have hleft := next_some hnext
              have hrest := ih h
              rw [out_foldl_push, List.length_append, List.length_map, List.length_map,
                List.length_zip, List.length_take] at hrest
              have hmin : Nat.min take take' ≤ take := Nat.min_le_left _ _
              omega

theorem length_putBack (rightBits : ℕ) (out : List Word) (excs : List (Word × BitVec 16)) :
    (putBack rightBits out excs).length = out.length := by
  induction excs generalizing out with
  | nil => rfl
  | cons e excs ih =>
      rw [putBack, List.foldl_cons]
      exact (ih _).trans (List.length_set ..)

theorem length_decode_le {bytes : Bytes} {maxValues : ℕ} {out : List Word}
    (h : decode bytes maxValues = .ok out) : out.length < 2 ^ 32 := by
  rw [decode] at h
  obtain ⟨⟨p, rights⟩, hparts, h⟩ := except_bind_ok.1 h
  have hcount : p.count < 2 ^ 32 := by
    rw [readParts] at hparts
    obtain ⟨header, bs, hheader, hparts⟩ := reader_bind_ok.1 hparts
    have hlt := fromLe_lt (header.take 4)
    have hfour : (header.take 4).length ≤ 4 := List.length_take_le _ _
    have hpow : 256 ^ (header.take 4).length ≤ 256 ^ 4 := Nat.pow_le_pow_right (by decide) hfour
    iterate 3
      obtain ⟨u, bs, -, hparts⟩ := reader_bind_ok.1 hparts
    iterate 2
      obtain ⟨d, bs, -, hparts⟩ := reader_bind_ok.1 hparts
    obtain ⟨u, bs, -, hparts⟩ := reader_bind_ok.1 hparts
    iterate 4
      obtain ⟨d, bs, -, hparts⟩ := reader_bind_ok.1 hparts
    cases reader_pure_ok.1 hparts
    simp only []
    omega
  simp only [combine] at h
  obtain ⟨positions, -, h⟩ := except_bind_ok.1 h
  split_ifs at h
  obtain ⟨c, hc, h⟩ := except_bind_ok.1 h
  obtain ⟨r, -, h⟩ := except_bind_ok.1 h
  split_ifs at h with hcodes hrights
  obtain ⟨s, hpass, h⟩ := except_bind_ok.1 h
  split_ifs at h
  cases h
  have hlen := out_lockstep p.rightBits p.dict hpass
  have hremaining := remaining_of_new hc
  rw [length_putBack]
  simp only [List.length_nil] at hlen
  omega

/-- The container of the positions that `encode` writes. -/
def positionsOf (values : List Word) : Bytes :=
  positionsBuf (chooseCut values) (dictOf values (chooseCut values)) values

/-- The patterns come back exactly when the header holds how many there are and how long
the container of the positions is. -/
theorem patterns_back_iff (values : List Word) :
    (∀ maxValues, values.length ≤ maxValues → decode (encode values) maxValues = .ok values) ↔
      values.length < 2 ^ 32 ∧ (positionsOf values).length < 2 ^ 32 := by
  have hcut := chooseCut_mem values
  obtain ⟨hdict, hmax⟩ := length_dictOf values (chooseCut values)
  constructor
  · intro h
    have hcount := length_decode_le (h _ le_rfl)
    refine ⟨hcount, not_le.1 fun hover => ?_⟩
    obtain ⟨e, he⟩ := decode_encodeWith_cut hmax hcount hover values.length
    have hback := h _ le_rfl
    rw [encode, he] at hback
    cases hback
  · rintro ⟨hcount, hfits⟩ maxValues hceiling
    exact decode_encodeWith hcut hdict hmax hcount hfits hceiling

/-- A list of `2 ^ 32` patterns does not come back. -/
theorem overlong_not_decoded :
    ¬ ∀ maxValues, (List.replicate (2 ^ 32) (0 : Word)).length ≤ maxValues →
      decode (encode (List.replicate (2 ^ 32) 0)) maxValues =
        .ok (List.replicate (2 ^ 32) 0) := by
  intro h
  have hlt := length_decode_le (h _ le_rfl)
  rw [List.length_replicate] at hlt
  exact lt_irrefl _ hlt

end AlpRd

end Zu.Encoding
