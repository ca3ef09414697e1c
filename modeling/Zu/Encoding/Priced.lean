import Zu.Encoding.Shape
import Zu.Encoding.Leaves

/-!
# What a price says

A price is never below what the encoding takes, except for the run values whose
spread it bounds by that of the whole. The encoding that is chosen is legal, is
cheaper than plain, and costs no more than any other.
-/

namespace Zu.Encoding

open Lib

/-! ### The size of a frame of reference -/

def chunkWidth (chunk : List Word) : ℕ := bitsNeeded (greatest chunk - least chunk)

namespace ForBitpack

theorem length_encodeChunk (chunk : List Word) :
    (encodeChunk chunk).length = 9 + packedBytes (chunkWidth chunk) chunk.length := by
  rw [encodeChunk_eq, List.length_append, length_chunkHeader, length_packed, chunkWidth]

theorem length_encode (values : List Word) : (encode values).length =
    4 + ((chunks chunkLen values).map fun c => 9 + packedBytes (chunkWidth c) c.length).sum := by
  have hsize : (fun c => (encodeChunk c).length) =
      fun c => 9 + packedBytes (chunkWidth c) c.length := funext length_encodeChunk
  rw [encode_eq, List.length_append, length_leBytes, body, List.length_flatMap, hsize]

end ForBitpack

/-- At one width, the chunks of values take what the values would take at once. -/
theorem sum_packedBytes (w : ℕ) (values : List Word) :
    ((chunks chunkLen values).map fun c => 9 + packedBytes w c.length).sum =
      (values.length + chunkLen - 1) / chunkLen * 9 + packedBytes w values.length := by
  induction values using chunks_induction (n := chunkLen) (by decide) with
  | nil =>
      rw [chunks_nil, List.map_nil, List.sum_nil, List.length_nil, packedBytes, Nat.zero_mul]
      rfl
  | step values hne ih =>
      have hpos := List.length_pos_of_ne_nil hne
      rw [chunks_of_ne_nil (by decide) hne, List.map_cons, List.sum_cons, ih, List.length_take,
        List.length_drop, packedBytes, packedBytes, packedBytes]
      by_cases hlen : values.length ≤ chunkLen
      · have hzero : values.length - chunkLen = 0 := Nat.sub_eq_zero_of_le hlen
        rw [Nat.min_eq_right hlen, hzero, Nat.zero_mul]
        rw [chunkLen] at hlen ⊢
        omega
      · obtain ⟨m, hm⟩ := Nat.exists_eq_add_of_le (not_le.1 hlen).le
        rw [Nat.min_eq_left (not_le.1 hlen).le, hm, Nat.add_sub_cancel_left, Nat.add_mul]
        rw [chunkLen]
        omega

theorem forBytes_eq (w : ℕ) (values : List Word) : forBytes values.length w =
    4 + ((chunks chunkLen values).map fun c => 9 + packedBytes w c.length).sum := by
  rw [sum_packedBytes, forBytes, Nat.add_assoc]

theorem packedBytes_mono {w w' : ℕ} (h : w ≤ w') (n : ℕ) : packedBytes w n ≤ packedBytes w' n := by
  have hmul : n * w ≤ n * w' := Nat.mul_le_mul_left n h
  rw [packedBytes, packedBytes]
  omega

/-- A container is within the price at a width no chunk exceeds. -/
theorem length_encode_le {values : List Word} {w : ℕ}
    (h : ∀ c ∈ chunks chunkLen values, chunkWidth c ≤ w) :
    (ForBitpack.encode values).length ≤ forBytes values.length w := by
  rw [ForBitpack.length_encode, forBytes_eq]
  apply Nat.add_le_add_left
  apply List.sum_le_sum
  intro c hc
  exact Nat.add_le_add_left (packedBytes_mono (h c hc) _) 9

/-- A container is no smaller than the price at a width every chunk has. -/
theorem le_length_encode {values : List Word} {w : ℕ}
    (h : ∀ c ∈ chunks chunkLen values, w ≤ chunkWidth c) :
    forBytes values.length w ≤ (ForBitpack.encode values).length := by
  rw [ForBitpack.length_encode, forBytes_eq]
  apply Nat.add_le_add_left
  apply List.sum_le_sum
  intro c hc
  exact Nat.add_le_add_left (packedBytes_mono (h c hc) _) 9

/-- The spread of a chunk is within any bounds on its values. -/
theorem chunkWidth_le {chunk : List Word} (hne : chunk ≠ []) {lo hi : Word}
    (h : ∀ v ∈ chunk, lo.toNat ≤ v.toNat ∧ v.toNat ≤ hi.toNat) :
    chunkWidth chunk ≤ bitsNeeded (hi - lo) := by
  have hleast := h _ (least_mem hne)
  have hgreatest := h _ (greatest_mem hne)
  have hspread := least_le (greatest_mem hne)
  apply bitsNeeded_mono
  rw [toNat_sub_of_le hspread, toNat_sub_of_le (hgreatest.1.trans hgreatest.2)]
  omega

/-- The container of values within bounds is within the price of their spread. -/
theorem length_encode_le_spread {values : List Word} {lo hi : Word}
    (h : ∀ v ∈ values, lo.toNat ≤ v.toNat ∧ v.toNat ≤ hi.toNat) :
    (ForBitpack.encode values).length ≤ forBytes values.length (bitsNeeded (hi - lo)) := by
  apply length_encode_le
  intro c hc
  apply chunkWidth_le (ne_nil_of_mem_chunks (by decide) hc)
  exact fun v hv => h v (mem_of_mem_chunks (by decide) hc hv)

/-! ### The choice -/

/-- What weighing candidates comes to: a price no higher than before or than that of
any of them, and the price of the one that won when it was not there before. -/
theorem foldl_weigh (s : Shape) (ids : List EncodingId) (best : EncodingId × ℕ) :
    (ids.foldl s.weigh best).2 ≤ best.2 ∧
      (∀ id ∈ ids, ∀ size, s.price id = some size → (ids.foldl s.weigh best).2 ≤ size) ∧
      (ids.foldl s.weigh best = best ∨
        (ids.foldl s.weigh best).1 ∈ ids ∧
          s.price (ids.foldl s.weigh best).1 = some (ids.foldl s.weigh best).2 ∧
          (ids.foldl s.weigh best).2 < best.2) := by
  induction ids generalizing best with
  | nil => exact ⟨le_rfl, fun id h => absurd h List.not_mem_nil, .inl rfl⟩
  | cons id ids ih =>
      rw [List.foldl_cons]
      obtain ⟨hle, hall, hwon⟩ := ih (s.weigh best id)
      have hstep : (s.weigh best id).2 ≤ best.2 ∧
          (∀ size, s.price id = some size → (s.weigh best id).2 ≤ size) ∧
          (s.weigh best id = best ∨ s.price id = some (s.weigh best id).2 ∧
            (s.weigh best id).1 = id ∧ (s.weigh best id).2 < best.2) := by
        rw [Shape.weigh]
        cases hprice : s.price id with
        | none => exact ⟨le_rfl, fun size h => absurd h (Option.some_ne_none size).symm, .inl rfl⟩
        | some size =>
            by_cases hlt : size < best.2
            · simp only [if_pos hlt]
              exact ⟨hlt.le, fun size' h => (Option.some.inj h).le, .inr ⟨trivial, trivial, hlt⟩⟩
            · simp only [if_neg hlt]
              exact ⟨le_rfl, fun size' h => Option.some.inj h ▸ not_lt.1 hlt, .inl trivial⟩
      obtain ⟨hstepLe, hstepId, hstepWon⟩ := hstep
      refine ⟨hle.trans hstepLe, ?_, ?_⟩
      · intro id' hid' size hsize
        cases List.mem_cons.1 hid' with
        | inl heq =>
            rw [heq] at hsize
            exact hle.trans (hstepId size hsize)
        | inr hmem => exact hall id' hmem size hsize
      · cases hwon with
        | inl heq =>
            rw [heq]
            cases hstepWon with
            | inl hsame => exact .inl hsame
            | inr hnew =>
                obtain ⟨hprice, hid, hlt⟩ := hnew
                refine .inr ⟨?_, ?_, hlt⟩
                · rw [hid]
                  exact List.mem_cons_self
                · rw [hid]
                  exact hprice
        | inr hlater =>
            obtain ⟨hmem, hprice, hlt⟩ := hlater
            exact .inr ⟨List.mem_cons_of_mem id hmem, hprice, hlt.trans_le hstepLe⟩

/-- What the pass would have an encoding cost. -/
def priceOf (values : List Word) (id : EncodingId) : Option ℕ := (Shape.read values).price id

section

variable {values : List Word} (hne : values ≠ [])

include hne

/-- The choice: the constant encoding for values that are all the same, and otherwise
the cheapest of plain and the candidates that are legal. -/
theorem choose_cases :
    choose values = .constant ∧ (∀ v ∈ values, v = values.headD 0) ∨
      choose values = .plain ∨
      choose values ∈ candidates ∧ ∃ size, priceOf values (choose values) = some size ∧
        size < 4 + values.length * 8 ∧
        ∀ id ∈ candidates, ∀ size', priceOf values id = some size' → size ≤ size' := by
  rw [choose, if_neg hne]
  simp only
  by_cases hconstant : (Shape.read values).constant = true
  · rw [if_pos hconstant]
    rw [read_constant, List.all_eq_true] at hconstant
    exact .inl ⟨rfl, fun v hv => of_decide_eq_true (hconstant v hv)⟩
  · rw [if_neg hconstant]
    obtain ⟨-, hall, hwon⟩ :=
      foldl_weigh (Shape.read values) candidates (.plain, 4 + values.length * 8)
    cases hwon with
    | inl heq => exact .inr (.inl (congrArg Prod.fst heq))
    | inr hlater =>
        obtain ⟨hmem, hprice, hlt⟩ := hlater
        exact .inr (.inr ⟨hmem, _, hprice, hlt, hall⟩)

/-- A candidate that is cheaper than plain and than every other is chosen. -/
theorem choose_eq {id : EncodingId} (hid : id ∈ candidates) {size : ℕ}
    (hprice : priceOf values id = some size) (hplain : size < 4 + values.length * 8)
    (hnot : ∃ v ∈ values, v ≠ values.headD 0)
    (hother : ∀ id' ∈ candidates, id' ≠ id → ∀ size', priceOf values id' = some size' →
      size < size') : choose values = id := by
  have hconstant : ¬ (Shape.read values).constant = true := by
    rw [read_constant, List.all_eq_true]
    intro hall
    obtain ⟨v, hv, hdiff⟩ := hnot
    exact hdiff (of_decide_eq_true (hall v hv))
  rw [choose, if_neg hne]
  simp only
  rw [if_neg hconstant]
  obtain ⟨-, hall, hwon⟩ :=
    foldl_weigh (Shape.read values) candidates (.plain, 4 + values.length * 8)
  have hle := hall id hid size hprice
  cases hwon with
  | inl heq =>
      rw [heq] at hle
      exact absurd hplain (not_lt.2 hle)
  | inr hlater =>
      obtain ⟨hmem, hsame, -⟩ := hlater
      by_contra hdiff
      exact absurd (hother _ hmem hdiff _ hsame) (not_lt.2 hle)

end

/-! ### Prices of the pass -/

section

variable {values : List Word} (hne : values ≠ [])

/-- The shortest and the longest of the runs. -/
def runSpread (values : List Word) : Word :=
  BitVec.ofNat 64 (((Rle.runs values).map Prod.snd).foldl Nat.max 0 -
    ((Rle.runs values).map Prod.snd).foldl Nat.min (2 ^ 64 - 1))

include hne

theorem priceOf_for : priceOf values .forBitPack = some (ForBitpack.encode values).length := by
  have h := congrArg (·.2.2.1) (read_prices hne)
  exact congrArg some h

theorem priceOf_delta : priceOf values .deltaBitPack =
    some (8 + (ForBitpack.encode (deltas (values.headD 0) values)).length) := by
  have h := congrArg (·.2.2.2.1) (read_prices hne)
  exact congrArg (fun n => some (8 + n)) h

theorem priceOf_patch : priceOf values .deltaPatch =
    some (8 + (Patch.encode (deltas (values.headD 0) values)).length) := by
  have h := congrArg (·.2.2.2.2) (read_prices hne)
  exact congrArg (fun n => some (8 + n)) h

theorem read_spread : (Shape.read values).max - (Shape.read values).min =
    greatest values - least values := by
  have hmin := congrArg (·.1) (read_prices hne)
  have hmax := congrArg (·.2.1) (read_prices hne)
  simp only [Shape.prices] at hmin hmax
  rw [hmin, hmax]

theorem priceOf_rle : priceOf values .rle =
    some (8 + forBytes (Rle.runs values).length (bitsNeeded (greatest values - least values)) +
      forBytes (Rle.runs values).length (bitsNeeded (runSpread values))) := by
  have hruns := congrArg (·.1) (read_runStats values)
  have hmin := congrArg (·.2.1) (read_runStats values)
  have hmax := congrArg (·.2.2) (read_runStats values)
  simp only [Shape.runStats] at hruns hmin hmax
  rw [priceOf, Shape.price, read_spread hne, hruns, hmin, hmax, runSpread]

theorem priceOf_frequency : priceOf values .frequency =
    some (16 +
      forBytes (values.length - (count values Dict.maxEntries).topCount)
        (bitsNeeded (BitVec.ofNat 64 values.length)) +
      forBytes (values.length - (count values Dict.maxEntries).topCount)
        (bitsNeeded (greatest values - least values))) := by
  have htop : (Shape.read values).topCount = (count values Dict.maxEntries).topCount := rfl
  rw [priceOf, Shape.price, read_spread hne, read_len, htop]

omit hne

theorem priceOf_dict {size : ℕ} (h : priceOf values .dict = some size) :
    values.toFinset.card ≤ Dict.maxEntries := by
  have hdistinct : (Shape.read values).distinct = (count values Dict.maxEntries).distinct := rfl
  rw [priceOf, Shape.price, hdistinct] at h
  obtain ⟨d, hd, -⟩ := Option.map_eq_some_iff.1 h
  obtain ⟨hcap, hcard⟩ := distinct_countIn 0 values Dict.maxEntries hd
  exact hcard.trans hcap

theorem priceOf_boolBitpack {size : ℕ} (h : priceOf values .boolBitpack = some size) :
    ∀ v ∈ values, v.toNat ≤ 1 := by
  rw [priceOf, Shape.price, read_binary] at h
  split at h
  · rename_i hall
    rw [List.all_eq_true] at hall
    exact fun v hv => of_decide_eq_true (hall v hv)
  · cases h

end

/-! ### Runs take no more than their price -/

theorem mem_of_mem_runsFrom {cur : Word} {len : ℕ} {values : List Word} {r : Word × ℕ}
    (hr : r ∈ Rle.runsFrom cur len values) : r.1 = cur ∨ r.1 ∈ values := by
  induction values generalizing cur len with
  | nil =>
      rw [Rle.runsFrom, List.mem_singleton] at hr
      exact .inl (congrArg Prod.fst hr)
  | cons v values ih =>
      rw [Rle.runsFrom] at hr
      split at hr
      · exact (ih hr).imp_right fun h => List.mem_cons_of_mem v h
      · cases List.mem_cons.1 hr with
        | inl heq => exact .inl (congrArg Prod.fst heq)
        | inr hmem => exact .inr (List.mem_cons.2 (ih hmem))

theorem mem_of_mem_runs {values : List Word} {r : Word × ℕ} (hr : r ∈ Rle.runs values) :
    r.1 ∈ values := by
  cases values with
  | nil => exact absurd hr List.not_mem_nil
  | cons v values => exact List.mem_cons.2 (mem_of_mem_runsFrom hr)

theorem foldl_min_le {lens : List ℕ} {n : ℕ} (hn : n ∈ lens) (m : ℕ) :
    lens.foldl Nat.min m ≤ n ∧ n ≤ lens.foldl Nat.max m := by
  have hle : ∀ (l : List ℕ) (m : ℕ), l.foldl Nat.min m ≤ m ∧ m ≤ l.foldl Nat.max m := by
    intro l
    induction l with
    | nil => exact fun m => ⟨le_rfl, le_rfl⟩
    | cons a l ih =>
        intro m
        exact ⟨(ih _).1.trans (Nat.min_le_left m a), (Nat.le_max_left m a).trans (ih _).2⟩
  induction lens generalizing m with
  | nil => exact absurd hn List.not_mem_nil
  | cons a lens ih =>
      cases List.mem_cons.1 hn with
      | inl heq =>
          rw [heq]
          exact ⟨(hle lens _).1.trans (Nat.min_le_right m a),
            (Nat.le_max_right m a).trans (hle lens _).2⟩
      | inr hmem => exact ⟨(ih hmem _).1, (ih hmem _).2⟩

theorem length_encode_rle (values : List Word) : (Rle.encode values).length =
    8 + (Rle.valuesBuf values).length + (Rle.lengthsBuf values).length := by
  rw [Rle.encode, List.length_append, List.length_append, List.length_append, length_leBytes,
    length_leBytes, Nat.add_assoc 8]
  omega

theorem length_encode_rle_le {values : List Word} (hne : values ≠ [])
    (h : values.length < 2 ^ 64) {size : ℕ} (hsize : priceOf values .rle = some size) :
    (Rle.encode values).length ≤ size := by
  rw [priceOf_rle hne] at hsize
  have hvalues : (Rle.valuesBuf values).length ≤
      forBytes (Rle.runs values).length (bitsNeeded (greatest values - least values)) := by
    have hle := @length_encode_le_spread ((Rle.runs values).map Prod.fst) (least values)
      (greatest values) (by
        intro v hv
        obtain ⟨r, hr, rfl⟩ := List.mem_map.1 hv
        exact ⟨least_le (mem_of_mem_runs hr), le_greatest (mem_of_mem_runs hr)⟩)
    rwa [List.length_map] at hle
  have hlengths : (Rle.lengthsBuf values).length ≤
      forBytes (Rle.runs values).length (bitsNeeded (runSpread values)) := by
    have hwidth : ∀ c ∈ chunks chunkLen ((Rle.runs values).map fun r => BitVec.ofNat 64 r.2),
        chunkWidth c ≤ bitsNeeded (runSpread values) := by
      intro c hc
      have hlen : ∀ v ∈ c, v.toNat ∈ (Rle.runs values).map Prod.snd ∧
          v.toNat ≤ values.length := by
        intro v hv
        obtain ⟨r, hr, rfl⟩ := List.mem_map.1 (mem_of_mem_chunks (by decide) hc hv)
        have hle := Rle.le_of_mem_runs hr
        rw [BitVec.toNat_ofNat, Nat.mod_eq_of_lt (by omega)]
        exact ⟨List.mem_map_of_mem hr, hle⟩
      have hcne : c ≠ [] := ne_nil_of_mem_chunks (by decide) hc
      have hgreatest := hlen _ (greatest_mem hcne)
      have hmin := (foldl_min_le (hlen _ (least_mem hcne)).1 (2 ^ 64 - 1)).1
      have hmax := (foldl_min_le hgreatest.1 0).2
      have hover : ∀ (l : List ℕ) (m : ℕ), (∀ n ∈ l, n ≤ values.length) → m ≤ values.length →
          l.foldl Nat.max m ≤ values.length := by
        intro l
        induction l with
        | nil => exact fun m _ hm => hm
        | cons a l ih =>
            intro m hl hm
            exact ih _ (fun n hn => hl n (List.mem_cons_of_mem a hn))
              (Nat.max_le.2 ⟨hm, hl a List.mem_cons_self⟩)
      have hlongest := hover ((Rle.runs values).map Prod.snd) 0 (by
        intro n hn
        obtain ⟨r, hr, rfl⟩ := List.mem_map.1 hn
        exact Rle.le_of_mem_runs hr) (Nat.zero_le _)
      apply bitsNeeded_mono
      rw [toNat_sub_of_le (least_le (greatest_mem hcne)), runSpread, BitVec.toNat_ofNat,
        Nat.mod_eq_of_lt (by omega)]
      omega
    have hle := length_encode_le hwidth
    rwa [List.length_map] at hle
  have htotal := Option.some.inj hsize
  rw [length_encode_rle]
  omega

/-! ### Positions stay within their length field -/

theorem bitsNeeded_le_div (v : Word) : bitsNeeded v ≤ 10 + v.toNat / 1024 := by
  have hpow : v.toNat / 1024 < 2 ^ (v.toNat / 1024) := Nat.lt_two_pow_self
  rw [bitsNeeded_le_iff, pow_add]
  omega

/-- Ascending words between two bounds take a bounded number of bytes for each chunk,
and as many again as the bounds are apart, over eight. -/
theorem length_body_ascending {values : List Word}
    (hsorted : values.Pairwise fun a b => a.toNat ≤ b.toNat) {lo hi : ℕ}
    (h : ∀ v ∈ values, lo ≤ v.toNat ∧ v.toNat ≤ hi) (hlohi : lo ≤ hi) :
    8 * (ForBitpack.body values).length ≤
      8 * 1289 * ((values.length + chunkLen - 1) / chunkLen) + (hi - lo) := by
  induction values using chunks_induction (n := chunkLen) (by decide) generalizing lo with
  | nil =>
      rw [ForBitpack.body_nil, List.length_nil]
      exact Nat.zero_le _
  | step values hne ih =>
      have htake : values.take chunkLen ≠ [] := by
        rw [Ne, List.take_eq_nil_iff]
        exact fun hor => hor.elim (by decide) hne
      have hgreatest := greatest_mem htake
      have hbound := h _ (List.mem_of_mem_take hgreatest)
      have hleast := h _ (List.mem_of_mem_take (least_mem htake))
      have hspread := toNat_sub_of_le (least_le hgreatest)
      have hrest : ∀ v ∈ values.drop chunkLen,
          (greatest (values.take chunkLen)).toNat ≤ v.toNat ∧ v.toNat ≤ hi := by
        intro v hv
        rw [← List.take_append_drop chunkLen values, List.pairwise_append] at hsorted
        exact ⟨hsorted.2.2 _ hgreatest v hv, (h v (List.mem_of_mem_drop hv)).2⟩
      have hih := ih (hsorted.sublist (List.drop_sublist _ _)) hrest hbound.2
      have hwidth := bitsNeeded_le_div
        (greatest (values.take chunkLen) - least (values.take chunkLen))
      have hpacked := @packedBytes_le (chunkWidth (values.take chunkLen)) _
        (List.length_take_le chunkLen values)
      have hpos := List.length_pos_of_ne_nil hne
      have hchunks : (values.length + chunkLen - 1) / chunkLen =
          ((values.drop chunkLen).length + chunkLen - 1) / chunkLen + 1 := by
        rw [List.length_drop, chunkLen]
        omega
      rw [ForBitpack.body_of_ne_nil hne, List.length_append, ForBitpack.length_encodeChunk, hchunks]
      rw [chunkWidth] at hpacked ⊢
      omega

theorem exceptionsFrom_bounds (top : Word) (i : ℕ) (values : List Word) :
    ((Frequency.exceptionsFrom top i values).map Prod.fst).Pairwise (· < ·) ∧
      ∀ e ∈ Frequency.exceptionsFrom top i values, i ≤ e.1 ∧ e.1 < i + values.length := by
  induction values generalizing i with
  | nil => exact ⟨List.Pairwise.nil, fun e he => absurd he List.not_mem_nil⟩
  | cons v values ih =>
      obtain ⟨hsorted, hrange⟩ := ih (i + 1)
      rw [Frequency.exceptionsFrom, List.length_cons]
      split
      · refine ⟨hsorted, fun e he => ?_⟩
        have hin := hrange e he
        omega
      · rw [List.map_cons]
        constructor
        · apply List.Pairwise.cons _ hsorted
          intro n hn
          obtain ⟨e, he, rfl⟩ := List.mem_map.1 hn
          exact (hrange e he).1
        · intro e he
          cases List.mem_cons.1 he with
          | inl heq =>
              rw [heq]
              exact ⟨le_rfl, by omega⟩
          | inr hmem =>
              have hin := hrange e hmem
              omega

section

variable {values : List Word} (h : values.length < 2 ^ 32)

include h

theorem length_positionsBuf_le : 8 * (Frequency.positionsBuf values).length ≤
    32 + 8 * 1289 * (((Frequency.exceptions values).length + chunkLen - 1) / chunkLen) +
      values.length := by
  obtain ⟨hsorted, hrange⟩ := exceptionsFrom_bounds (Frequency.top values) 0 values
  have hword : ∀ e ∈ Frequency.exceptions values, (BitVec.ofNat 64 e.1).toNat = e.1 := by
    intro e he
    have hin := hrange e he
    rw [BitVec.toNat_ofNat, Nat.mod_eq_of_lt (by omega)]
  have hascending : (Frequency.positions values).Pairwise fun a b => a.toNat ≤ b.toNat := by
    rw [Frequency.positions, List.pairwise_map]
    rw [List.pairwise_map] at hsorted
    apply List.Pairwise.imp_of_mem _ hsorted
    intro a b ha hb hlt
    rw [hword a ha, hword b hb]
    exact hlt.le
  have hbounds : ∀ v ∈ Frequency.positions values, 0 ≤ v.toNat ∧ v.toNat ≤ values.length := by
    intro v hv
    obtain ⟨e, he, rfl⟩ := List.mem_map.1 hv
    have hin := hrange e he
    rw [hword e he]
    omega
  have hbody := length_body_ascending hascending hbounds (Nat.zero_le _)
  rw [Frequency.positions, List.length_map] at hbody
  rw [Frequency.positionsBuf, ForBitpack.encode_eq, List.length_append, length_leBytes,
    Frequency.positions]
  omega

omit h in
/-- There are no more exceptions than the price assumes: its count stops at a cap, the
encoder's does not. -/
theorem length_exceptions_le_price (hne : values ≠ []) : (Frequency.exceptions values).length ≤
    values.length - (count values Dict.maxEntries).topCount := by
  have hcapped : (count values Dict.maxEntries).topCount ≤
      values.count (count values Dict.maxEntries).top := topCount_countIn_le 0 values Dict.maxEntries
  have hmost : values.count (count values Dict.maxEntries).top ≤
      (count values values.length).topCount :=
    count_le_topCount 0 values (count values Dict.maxEntries).top
  have htop : (count values values.length).topCount ≤
      values.count (count values values.length).top :=
    topCount_countIn_le 0 values values.length
  have hsum := Frequency.length_exceptionsFrom (Frequency.top values) 0 values
  have heq : Frequency.top values = (count values values.length).top := if_neg hne
  rw [Frequency.exceptions]
  rw [heq] at hsum ⊢
  omega

theorem bitsNeeded_length (hbig : 2 ^ 31 ≤ values.length) :
    bitsNeeded (BitVec.ofNat 64 values.length) = 32 := by
  have hval : (BitVec.ofNat 64 values.length).toNat = values.length := by
    rw [BitVec.toNat_ofNat, Nat.mod_eq_of_lt (by omega)]
  apply le_antisymm
  · rw [bitsNeeded_le_iff, hval]
    exact h
  · by_contra hlt
    have hsmall := bitsNeeded_le_iff.1 (Nat.le_of_lt_succ (not_le.1 hlt))
    rw [hval] at hsmall
    exact absurd hbig (not_le.2 hsmall)

omit h in
/-- What it says of the exceptions that two containers of them, one at 32 bits, cost
no more than one of everything. -/
theorem few_exceptions {n e s : ℕ} (hs : s ≤ 64) (he : e ≤ n)
    (hcost : 16 + forBytes e 32 + forBytes e s ≤ forBytes n s) :
    96 * e + 144 * ((e + chunkLen - 1) / chunkLen) ≤
      64 * n + 72 * ((n + chunkLen - 1) / chunkLen) := by
  obtain ⟨d, rfl⟩ := Nat.exists_eq_add_of_le he
  have hmul : d * s ≤ d * 64 := Nat.mul_le_mul_left d hs
  have hsplit : (e + d) * s = e * s + d * s := Nat.add_mul e d s
  rw [forBytes, forBytes, forBytes, packedBytes, packedBytes, packedBytes, hsplit] at hcost
  generalize (e + chunkLen - 1) / chunkLen = a at *
  generalize (e + d + chunkLen - 1) / chunkLen = b at *
  omega

/-- Where the frequency encoding costs no more than a frame of reference, there are
too few exceptions for their positions to pass the length field. -/
theorem length_positionsBuf_lt (hne : values ≠ []) {size : ℕ}
    (hsize : priceOf values .frequency = some size)
    (hfor : size ≤ (ForBitpack.encode values).length) :
    (Frequency.positionsBuf values).length < 2 ^ 32 := by
  have hpositions := length_positionsBuf_le h
  have hexc := length_exceptions_le_price hne
  have htotal := Frequency.length_exceptions_le values
  rw [chunkLen] at hpositions
  by_cases hbig : values.length < 2 ^ 31
  · omega
  · rw [priceOf_frequency hne, bitsNeeded_length h (not_lt.1 hbig)] at hsize
    have hprice := Option.some.inj hsize
    have hwhole := @length_encode_le_spread values (least values) (greatest values)
      fun v hv => ⟨least_le hv, le_greatest hv⟩
    have hwidth := bitsNeeded_le (greatest values - least values)
    have hfew := few_exceptions hwidth (Nat.sub_le _ _)
      (hprice.trans_le (hfor.trans hwhole))
    rw [chunkLen] at hfew
    generalize values.length - (count values Dict.maxEntries).topCount = e at *
    omega

end

end Zu.Encoding
