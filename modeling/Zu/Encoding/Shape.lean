import Zu.Encoding.Segment

/-!
# What the pass finds

The pass that prices the encodings keeps running totals block by block. The three
container sizes it arrives at are exact, its runs are the runs, and its extremes are
those of the values.
-/

namespace Zu.Encoding

open Lib

/-! ### Extremes -/

theorem minWord_eq : minWord = fun m x : Word => if x < m then x else m := by
  funext m x
  rw [minWord]
  congr 1

theorem maxWord_eq : maxWord = fun m x : Word => if m < x then x else m := by
  funext m x
  rw [maxWord]
  congr 1

theorem foldl_minWord {values : List Word} (h : values ≠ []) :
    values.foldl minWord wordMax = least values := by
  cases values with
  | nil => exact absurd rfl h
  | cons v values =>
      have hfirst : minWord wordMax v = v := by
        have hle : v.toNat ≤ wordMax.toNat := Nat.le_of_lt_succ v.isLt
        rw [minWord]
        split
        · rfl
        · exact BitVec.eq_of_toNat_eq (le_antisymm (by omega) hle)
      rw [List.foldl_cons, hfirst, least, minWord_eq]

theorem foldl_maxWord {values : List Word} (h : values ≠ []) :
    values.foldl maxWord 0 = greatest values := by
  cases values with
  | nil => exact absurd rfl h
  | cons v values =>
      have hfirst : maxWord 0 v = v := by
        rw [maxWord]
        split
        · rfl
        · rename_i hzero
          have hz : v.toNat = 0 := Nat.eq_zero_of_not_pos hzero
          exact (BitVec.eq_of_toNat_eq hz).symm
      rw [List.foldl_cons, hfirst, greatest, maxWord_eq]

/-! ### One block -/

@[simp] theorem Scan.see_prev (first : Word) (s : Scan) (v : Word) : (s.see first v).prev = v := by
  rw [Scan.see]
  split <;> rfl

/-- What a block keeps does not depend on the rest of the pass. -/
theorem foldl_block (first : Word) (block : List Word) (s : Scan) (b : BlockScan) :
    block.foldl (fun (p : Scan × BlockScan) v =>
        (p.1.see first v, p.2.see v (zigzag (v - p.1.prev)))) (s, b) =
      (block.foldl (Scan.see first) s,
        (block.zip (deltas s.prev block)).foldl (fun b p => b.see p.1 p.2) b) := by
  induction block generalizing s b with
  | nil => rfl
  | cons v block ih =>
      rw [List.foldl_cons, ih, Scan.see_prev, deltas, List.zip_cons_cons, List.foldl_cons,
        List.foldl_cons]

section

variable (b : BlockScan) {block zz : List Word} (hlen : block.length = zz.length)

include hlen

theorem foldl_bmin : ((block.zip zz).foldl (fun b p => b.see p.1 p.2) b).bmin =
    block.foldl minWord b.bmin := by
  induction block generalizing b zz with
  | nil => rfl
  | cons v block ih =>
      cases zz with
      | nil => exact absurd hlen (Nat.succ_ne_zero _)
      | cons z zz => exact ih (b.see v z) (Nat.succ.inj hlen)

theorem foldl_bmax : ((block.zip zz).foldl (fun b p => b.see p.1 p.2) b).bmax =
    block.foldl maxWord b.bmax := by
  induction block generalizing b zz with
  | nil => rfl
  | cons v block ih =>
      cases zz with
      | nil => exact absurd hlen (Nat.succ_ne_zero _)
      | cons z zz => exact ih (b.see v z) (Nat.succ.inj hlen)

theorem foldl_dmin : ((block.zip zz).foldl (fun b p => b.see p.1 p.2) b).dmin =
    zz.foldl minWord b.dmin := by
  induction zz generalizing b block with
  | nil =>
      rw [List.zip_nil_right]
      rfl
  | cons z zz ih =>
      cases block with
      | nil => exact absurd hlen.symm (Nat.succ_ne_zero _)
      | cons v block => exact ih (b.see v z) (Nat.succ.inj hlen)

theorem foldl_dmax : ((block.zip zz).foldl (fun b p => b.see p.1 p.2) b).dmax =
    zz.foldl maxWord b.dmax := by
  induction zz generalizing b block with
  | nil =>
      rw [List.zip_nil_right]
      rfl
  | cons z zz ih =>
      cases block with
      | nil => exact absurd hlen.symm (Nat.succ_ne_zero _)
      | cons v block => exact ih (b.see v z) (Nat.succ.inj hlen)

theorem foldl_wide : ((block.zip zz).foldl (fun b p => b.see p.1 p.2) b).wide =
    zz.foldl (fun w v => max w (bitsNeeded v)) b.wide := by
  induction zz generalizing b block with
  | nil =>
      rw [List.zip_nil_right]
      rfl
  | cons z zz ih =>
      cases block with
      | nil => exact absurd hlen.symm (Nat.succ_ne_zero _)
      | cons v block => exact ih (b.see v z) (Nat.succ.inj hlen)

theorem foldl_hist (w : ℕ) : ((block.zip zz).foldl (fun b p => b.see p.1 p.2) b).hist w =
    b.hist w + Patch.hist zz w := by
  induction zz generalizing b block with
  | nil =>
      rw [List.zip_nil_right]
      rfl
  | cons z zz ih =>
      cases block with
      | nil => exact absurd hlen.symm (Nat.succ_ne_zero _)
      | cons v block =>
          have hrest := ih (b.see v z) (Nat.succ.inj hlen)
          have hhead : (b.see v z).hist w = b.hist w + if bitsNeeded z = w then 1 else 0 := by
            change Function.update b.hist (bitsNeeded z) (b.hist (bitsNeeded z) + 1) w = _
            by_cases hz : w = bitsNeeded z
            · rw [hz, Function.update_self, if_pos rfl]
            · rw [Function.update_of_ne hz, if_neg (Ne.symm hz), Nat.add_zero]
          rw [List.zip_cons_cons, List.foldl_cons, hrest, hhead, Patch.hist, Patch.hist,
            List.countP_cons]
          simp only [decide_eq_true_eq]
          omega

end

/-! ### What the patched container costs -/

/-- The exceptions there are at a width. -/
def excsAt (zz : List Word) (w : ℕ) : ℕ := zz.countP fun v => w < bitsNeeded v

theorem excsAt_succ (zz : List Word) (w : ℕ) :
    excsAt zz w = excsAt zz (w + 1) + Patch.hist zz (w + 1) := by
  rw [excsAt, excsAt, Patch.hist]
  induction zz with
  | nil => rfl
  | cons v zz ih =>
      rw [List.countP_cons, List.countP_cons, List.countP_cons, ih]
      simp only [decide_eq_true_eq]
      by_cases h : w < bitsNeeded v
      · by_cases h' : w + 1 < bitsNeeded v
        · rw [if_pos h, if_pos h', if_neg (by omega)]
          omega
        · rw [if_pos h, if_neg h', if_pos (by omega)]
          omega
      · rw [if_neg h, if_neg (by omega), if_neg (by omega)]
        omega

theorem excsAt_widest (zz : List Word) : excsAt zz (Patch.widest zz) = 0 := by
  rw [excsAt, List.countP_eq_zero]
  intro v hv
  rw [decide_eq_true_eq]
  exact not_lt.2 (Patch.bitsNeeded_le_widest hv)

/-- What a chunk costs at a width. -/
def costAt (zz : List Word) (w : ℕ) : ℕ :=
  packedBytes w zz.length + packedBytes 1 zz.length +
    packedBytes (Patch.widest zz) (excsAt zz w)

/-- The encoder's walk ends with the cost of the width it picks. -/
theorem priceWidths_cost (zz : List Word) {w : ℕ} {s : ℕ × ℕ × ℕ}
    (hcost : s.1 = costAt zz s.2.1) (hexc : s.2.2 = excsAt zz w) :
    (Patch.priceWidths (Patch.hist zz) (Patch.widest zz) zz.length w s).1 =
      costAt zz (Patch.priceWidths (Patch.hist zz) (Patch.widest zz) zz.length w s).2.1 := by
  induction w generalizing s with
  | zero => exact hcost
  | succ w ih =>
      obtain ⟨best, width, excCount⟩ := s
      simp only at hcost hexc
      have hnext : excCount + Patch.hist zz (w + 1) = excsAt zz w := by
        rw [hexc, ← excsAt_succ]
      rw [Patch.priceWidths]
      split
      · apply ih
        · simp only
          rw [hnext]
          rfl
        · exact hnext
      · apply ih
        · exact hcost
        · exact hnext

theorem patchBodyFrom_eq (hist : ℕ → ℕ) (wide take w best width exc : ℕ) :
    patchBodyFrom hist wide take w (best, exc) =
      (Patch.priceWidths hist wide take w (best, width, exc)).1 := by
  induction w generalizing best width exc with
  | zero => rfl
  | succ w ih =>
      rw [patchBodyFrom, Patch.priceWidths]
      split
      · rename_i hlt
        rw [← ih]
        congr 2
        exact Nat.min_eq_right hlt.le
      · rename_i hge
        rw [← ih]
        congr 2
        exact Nat.min_eq_left (not_lt.1 hge)

/-- A chunk takes its header and what it costs at the width the encoder picks. -/
theorem length_patchChunk (zz : List Word) :
    (Patch.encodeChunk zz).length = 2 + costAt zz (Patch.pickWidth zz) := by
  have hexc : ((Patch.bitmap zz).map Patch.countOnes).sum = excsAt zz (Patch.pickWidth zz) := by
    rw [Patch.bitmap_eq, Patch.sum_countOnes_wordBytes, Patch.setBits_flags,
      Patch.length_wideFrom, ← List.countP_eq_length_filter]
    rfl
  rw [Patch.encodeChunk_eq, List.length_append, List.length_append, List.length_append,
    Patch.length_chunkHeader, Patch.length_slots, Patch.length_bitmap, Patch.length_exceptions,
    hexc, costAt, Nat.add_assoc]

/-- What the pass prices for a chunk is what the encoder writes. -/
theorem patchBody_eq (zz : List Word) :
    2 + patchBody (Patch.hist zz) (Patch.widest zz) zz.length = (Patch.encodeChunk zz).length := by
  have hstart : packedBytes (Patch.widest zz) zz.length + packedBytes 1 zz.length =
      costAt zz (Patch.widest zz) := by
    rw [costAt, excsAt_widest, packedBytes, packedBytes, packedBytes, Nat.zero_mul]
    rfl
  have hcost := priceWidths_cost zz (w := Patch.widest zz)
    (s := (packedBytes (Patch.widest zz) zz.length + packedBytes 1 zz.length,
      Patch.widest zz, 0)) hstart (excsAt_widest zz).symm
  rw [patchBody, patchBodyFrom_eq _ _ _ _ _ (Patch.widest zz), hcost, length_patchChunk,
    Patch.pickWidth]

/-! ### Runs and flags -/

/-- A pass without what it prices. -/
def Scan.unpriced (s : Scan) : Scan :=
  { s with
    shape := { s.shape with min := 0, max := 0, forBytes := 0, deltaBytes := 0, patchBytes := 0 } }

theorem Scan.unpriced_see (first : Word) (s : Scan) (v : Word) :
    (s.see first v).unpriced = s.unpriced.see first v := by
  rw [Scan.see, Scan.see]
  change Scan.unpriced (if v = s.prev ∧ 0 < s.run then _ else _) =
    if v = s.prev ∧ 0 < s.run then _ else _
  split
  · rfl
  · rw [Scan.unpriced, Shape.closeRun, Shape.closeRun]
    change _ = Scan.mk (if 0 < s.run then _ else _) v 1
    split <;> rfl

theorem Scan.unpriced_foldl (first : Word) (values : List Word) (s : Scan) :
    (values.foldl (Scan.see first) s).unpriced = values.foldl (Scan.see first) s.unpriced := by
  induction values generalizing s with
  | nil => rfl
  | cons v values ih => rw [List.foldl_cons, ih, Scan.unpriced_see, List.foldl_cons]

/-- A block's prices aside, the pass sees its values. -/
theorem Scan.unpriced_block (first : Word) (s : Scan) (block : List Word) :
    (s.block first block).unpriced = block.foldl (Scan.see first) s.unpriced := by
  rw [← Scan.unpriced_foldl, Scan.block, foldl_block]
  rfl

theorem Scan.unpriced_blocks (first : Word) (blocks : List (List Word)) (s : Scan) :
    (blocks.foldl (Scan.block first) s).unpriced =
      blocks.flatten.foldl (Scan.see first) s.unpriced := by
  induction blocks generalizing s with
  | nil => rfl
  | cons block blocks ih =>
      rw [List.foldl_cons, ih, Scan.unpriced_block, List.flatten_cons, List.foldl_append]

theorem Scan.foldl_constant (first : Word) (values : List Word) (s : Scan) :
    (values.foldl (Scan.see first) s).shape.constant =
      (s.shape.constant && values.all fun v => v = first) := by
  induction values generalizing s with
  | nil => rw [List.foldl_nil, List.all_nil, Bool.and_true]
  | cons v values ih =>
      have hstep : (s.see first v).shape.constant =
          (s.shape.constant && decide (v = first)) := by
        rw [Scan.see]
        split
        · rfl
        · rw [Shape.closeRun]
          split <;> rfl
      rw [List.foldl_cons, ih, hstep, List.all_cons, Bool.and_assoc]

theorem Scan.foldl_binary (first : Word) (values : List Word) (s : Scan) :
    (values.foldl (Scan.see first) s).shape.binary =
      (s.shape.binary && values.all fun v => v.toNat ≤ 1) := by
  induction values generalizing s with
  | nil => rw [List.foldl_nil, List.all_nil, Bool.and_true]
  | cons v values ih =>
      have hstep : (s.see first v).shape.binary =
          (s.shape.binary && decide (v.toNat ≤ 1)) := by
        rw [Scan.see]
        split
        · rfl
        · rw [Shape.closeRun]
          split <;> rfl
      rw [List.foldl_cons, ih, hstep, List.all_cons, Bool.and_assoc]

def Shape.runStats (s : Shape) : ℕ × ℕ × ℕ := (s.runs, s.runLenMin, s.runLenMax)

/-- What one more run does to it. -/
def addRun (s : ℕ × ℕ × ℕ) (len : ℕ) : ℕ × ℕ × ℕ :=
  if 0 < len then (s.1 + 1, Nat.min s.2.1 len, Nat.max s.2.2 len) else s

theorem Shape.runStats_closeRun (s : Shape) (len : ℕ) :
    (s.closeRun len).runStats = addRun s.runStats len := by
  rw [Shape.closeRun, addRun]
  split <;> rfl

/-- A pass in a run closes the runs that go on from it. The induction is on the
values, over the run it is in. -/
theorem Scan.foldl_runStats (first : Word) (values : List Word) {s : Scan} (hrun : 0 < s.run) :
    addRun (values.foldl (Scan.see first) s).shape.runStats
        (values.foldl (Scan.see first) s).run =
      ((Rle.runsFrom s.prev s.run values).map Prod.snd).foldl addRun s.shape.runStats := by
  induction values generalizing s with
  | nil => rfl
  | cons v values ih =>
      rw [List.foldl_cons, Rle.runsFrom]
      by_cases hv : v = s.prev
      · have hsee : s.see first v =
            { shape := { s.shape with
                constant := s.shape.constant && decide (v = first)
                binary := s.shape.binary && decide (v.toNat ≤ 1) }
              prev := v, run := s.run + 1 } := by
          rw [Scan.see]
          exact if_pos ⟨hv, hrun⟩
        rw [ih (by rw [hsee]; exact Nat.succ_pos _), hsee, if_pos hv, ← hv]
        rfl
      · have hstats : (s.see first v).shape.runStats = addRun s.shape.runStats s.run := by
          rw [Scan.see, if_neg (fun h => hv h.1), Shape.runStats_closeRun]
          rfl
        have hone : (s.see first v).run = 1 := by
          rw [Scan.see, if_neg (fun h => hv h.1)]
        rw [ih (by rw [hone]; exact Nat.one_pos), Scan.see_prev, hone, hstats, if_neg hv,
          List.map_cons, List.foldl_cons]

theorem Scan.fresh_runStats (first : Word) (values : List Word) {s : Scan} (hrun : s.run = 0) :
    addRun (values.foldl (Scan.see first) s).shape.runStats
        (values.foldl (Scan.see first) s).run =
      ((Rle.runs values).map Prod.snd).foldl addRun s.shape.runStats := by
  cases values with
  | nil => rw [List.foldl_nil, hrun]; rfl
  | cons v values =>
      have hnot : ¬ (v = s.prev ∧ 0 < s.run) := fun h => h.2.ne' hrun
      have hone : (s.see first v).run = 1 := by
        rw [Scan.see, if_neg hnot]
      have hstats : (s.see first v).shape.runStats = s.shape.runStats := by
        rw [Scan.see, if_neg hnot, Shape.runStats_closeRun, addRun, hrun, if_neg (lt_irrefl 0)]
        rfl
      rw [List.foldl_cons, Scan.foldl_runStats _ _ (by rw [hone]; exact Nat.one_pos),
        Scan.see_prev, hone, hstats]
      rfl

theorem foldl_addRun {lens : List ℕ} (h : ∀ n ∈ lens, 0 < n) (s : ℕ × ℕ × ℕ) :
    lens.foldl addRun s =
      (s.1 + lens.length, lens.foldl Nat.min s.2.1, lens.foldl Nat.max s.2.2) := by
  induction lens generalizing s with
  | nil => rfl
  | cons n lens ih =>
      rw [List.foldl_cons, ih fun m hm => h m (List.mem_cons_of_mem n hm), addRun,
        if_pos (h n List.mem_cons_self), List.length_cons, Nat.add_assoc, Nat.add_comm 1]
      rfl

/-! ### Prices -/

theorem minWord_assoc (a b c : Word) : minWord (minWord a b) c = minWord a (minWord b c) := by
  unfold minWord
  split_ifs <;> first | rfl | omega

theorem maxWord_assoc (a b c : Word) : maxWord (maxWord a b) c = maxWord a (maxWord b c) := by
  unfold maxWord
  split_ifs <;> first | rfl | omega

theorem minWord_wordMax (a : Word) : minWord a wordMax = a := by
  have hle : a.toNat ≤ wordMax.toNat := Nat.le_of_lt_succ a.isLt
  rw [minWord, if_neg (not_lt.2 hle)]

theorem maxWord_zero (a : Word) : maxWord a 0 = a := by
  rw [maxWord]
  exact if_neg (Nat.not_lt_zero _)

theorem minWord_foldl (m : Word) (values : List Word) :
    minWord m (values.foldl minWord wordMax) = values.foldl minWord m := by
  have hassoc : Std.Associative minWord := ⟨minWord_assoc⟩
  rw [← @List.foldl_assoc Word minWord hassoc, minWord_wordMax]

theorem maxWord_foldl (m : Word) (values : List Word) :
    maxWord m (values.foldl maxWord 0) = values.foldl maxWord m := by
  have hassoc : Std.Associative maxWord := ⟨maxWord_assoc⟩
  rw [← @List.foldl_assoc Word maxWord hassoc, maxWord_zero]

theorem take_deltas (prev : Word) (n : ℕ) (values : List Word) :
    (deltas prev values).take n = deltas prev (values.take n) := by
  induction values generalizing prev n with
  | nil => rw [List.take_nil, deltas, List.take_nil]
  | cons v values ih =>
      cases n with
      | zero => rfl
      | succ n => rw [deltas, List.take_succ_cons, ih, List.take_succ_cons, deltas]

theorem drop_deltas (prev : Word) (n : ℕ) (values : List Word) :
    (deltas prev values).drop n = deltas ((values.take n).getLastD prev) (values.drop n) := by
  induction values generalizing prev n with
  | nil => rw [List.drop_nil, deltas, List.drop_nil, deltas]
  | cons v values ih =>
      cases n with
      | zero => rfl
      | succ n =>
          rw [deltas, List.drop_succ_cons, ih, List.take_succ_cons, List.getLastD_cons,
            List.drop_succ_cons]

def Shape.prices (s : Shape) : Word × Word × ℕ × ℕ × ℕ :=
  (s.min, s.max, s.forBytes, s.deltaBytes, s.patchBytes)

@[simp] theorem Shape.prices_closeRun (s : Shape) (len : ℕ) :
    (s.closeRun len).prices = s.prices := by
  rw [Shape.closeRun]
  split <;> rfl

theorem Scan.foldl_prices (first : Word) (values : List Word) (s : Scan) :
    (values.foldl (Scan.see first) s).shape.prices = s.shape.prices ∧
      (values.foldl (Scan.see first) s).prev = values.getLastD s.prev := by
  induction values generalizing s with
  | nil => exact ⟨rfl, rfl⟩
  | cons v values ih =>
      have hstep : (s.see first v).shape.prices = s.shape.prices := by
        rw [Scan.see]
        split
        · rfl
        · exact Shape.prices_closeRun _ _
      rw [List.foldl_cons, (ih (s.see first v)).1, (ih (s.see first v)).2, Scan.see_prev,
        List.getLastD_cons]
      exact ⟨hstep, rfl⟩

/-- What the pass adds for a block is what its chunk takes in each container. -/
theorem Scan.block_prices (first : Word) (s : Scan) {block : List Word} (hne : block ≠ []) :
    (s.block first block).shape.prices =
      (block.foldl minWord s.shape.min, block.foldl maxWord s.shape.max,
        s.shape.forBytes + (ForBitpack.encodeChunk block).length,
        s.shape.deltaBytes + (ForBitpack.encodeChunk (deltas s.prev block)).length,
        s.shape.patchBytes + (Patch.encodeChunk (deltas s.prev block)).length) ∧
      (s.block first block).prev = block.getLastD s.prev := by
  have hlen : block.length = (deltas s.prev block).length := (length_deltas _ _).symm
  have hzz : deltas s.prev block ≠ [] := by
    apply List.ne_nil_of_length_pos
    rw [← hlen]
    exact List.length_pos_of_ne_nil hne
  have hsize : ∀ part : List Word, (ForBitpack.encodeChunk part).length =
      9 + packedBytes (bitsNeeded (greatest part - least part)) part.length := by
    intro part
    rw [ForBitpack.encodeChunk_eq, List.length_append, ForBitpack.length_chunkHeader,
      ForBitpack.length_packed]
  have hhist : ((block.zip (deltas s.prev block)).foldl
      (fun b p => b.see p.1 p.2) ({} : BlockScan)).hist = Patch.hist (deltas s.prev block) := by
    funext w
    exact (foldl_hist {} hlen w).trans (Nat.zero_add _)
  have hprices := (Scan.foldl_prices first block s).1
  rw [Shape.prices, Shape.prices, Prod.mk.injEq, Prod.mk.injEq, Prod.mk.injEq, Prod.mk.injEq]
    at hprices
  obtain ⟨hmin, hmax, hfor, hdelta, hpatch⟩ := hprices
  rw [Scan.block, foldl_block]
  refine ⟨?_, (Scan.foldl_prices first block s).2⟩
  simp only [Shape.prices]
  rw [hmin, hmax, hfor, hdelta, hpatch, foldl_bmin {} hlen, foldl_bmax {} hlen,
    foldl_dmin {} hlen, foldl_dmax {} hlen, hhist, foldl_wide {} hlen, minWord_foldl,
    maxWord_foldl, foldl_minWord hne, foldl_maxWord hne, foldl_minWord hzz, foldl_maxWord hzz,
    hsize, hsize, ← hlen, ← patchBody_eq, ← hlen]
  rfl

/-- The pass prices what the three containers take. The induction is on the blocks,
over what was priced before them. -/
theorem Scan.blocks_prices (first : Word) (values : List Word) (s : Scan) :
    ((chunks chunkLen values).foldl (Scan.block first) s).shape.prices =
      (values.foldl minWord s.shape.min, values.foldl maxWord s.shape.max,
        s.shape.forBytes + (ForBitpack.body values).length,
        s.shape.deltaBytes + (ForBitpack.body (deltas s.prev values)).length,
        s.shape.patchBytes + (Patch.body (deltas s.prev values)).length) := by
  induction values using chunks_induction (n := chunkLen) (by decide) generalizing s with
  | nil => rfl
  | step values hne ih =>
      have htake : values.take chunkLen ≠ [] := by
        rw [Ne, List.take_eq_nil_iff]
        exact fun h => h.elim (by decide) hne
      obtain ⟨hprices, hprev⟩ := Scan.block_prices first s htake
      have hzz : deltas s.prev values ≠ [] := by
        apply List.ne_nil_of_length_pos
        rw [length_deltas]
        exact List.length_pos_of_ne_nil hne
      have hmin := congrArg (·.1) hprices
      have hmax := congrArg (·.2.1) hprices
      have hfor := congrArg (·.2.2.1) hprices
      have hdelta := congrArg (·.2.2.2.1) hprices
      have hpatch := congrArg (·.2.2.2.2) hprices
      simp only [Shape.prices] at hmin hmax hfor hdelta hpatch
      rw [chunks_of_ne_nil (by decide) hne, List.foldl_cons, ih, hmin, hmax, hfor, hdelta, hpatch,
        hprev, ← List.foldl_append, ← List.foldl_append, List.take_append_drop,
        ForBitpack.body_of_ne_nil hne, ForBitpack.body_of_ne_nil hzz, Patch.body_of_ne_nil hzz,
        take_deltas, drop_deltas, List.length_append, List.length_append, List.length_append,
        Nat.add_assoc, Nat.add_assoc, Nat.add_assoc]

/-! ### The whole pass -/

section

variable (values : List Word)

/-- Where the pass over values ends. -/
def lastScan : Scan :=
  (chunks chunkLen values).foldl (Scan.block (values.headD 0))
    { shape := { len := values.length }, prev := values.headD 0 }

theorem unpriced_lastScan : (lastScan values).unpriced = values.foldl (Scan.see (values.headD 0))
    (Scan.unpriced { shape := { len := values.length }, prev := values.headD 0 }) := by
  rw [lastScan, Scan.unpriced_blocks, flatten_chunks (by decide)]

theorem read_eq : Shape.read values =
    { (lastScan values).shape.closeRun (lastScan values).run with
      distinct := (count values Dict.maxEntries).distinct
      topCount := (count values Dict.maxEntries).topCount } := rfl

theorem constant_closeRun (s : Shape) (len : ℕ) :
    (s.closeRun len).constant = s.constant ∧ (s.closeRun len).binary = s.binary ∧
      (s.closeRun len).len = s.len := by
  rw [Shape.closeRun]
  split
  · exact ⟨rfl, rfl, rfl⟩
  · exact ⟨rfl, rfl, rfl⟩

theorem Scan.foldl_len (first : Word) (values : List Word) (s : Scan) :
    (values.foldl (Scan.see first) s).shape.len = s.shape.len := by
  induction values generalizing s with
  | nil => rfl
  | cons v values ih =>
      have hstep : (s.see first v).shape.len = s.shape.len := by
        rw [Scan.see]
        split
        · rfl
        · exact (constant_closeRun _ _).2.2
      rw [List.foldl_cons, ih, hstep]

theorem read_len : (Shape.read values).len = values.length := by
  have h := congrArg (fun s : Scan => s.shape.len) (unpriced_lastScan values)
  rw [read_eq]
  exact (constant_closeRun _ _).2.2.trans (h.trans (Scan.foldl_len _ _ _))

theorem read_constant :
    (Shape.read values).constant = values.all fun v => v = values.headD 0 := by
  have h := congrArg (fun s : Scan => s.shape.constant) (unpriced_lastScan values)
  rw [read_eq]
  exact (constant_closeRun _ _).1.trans (h.trans (Scan.foldl_constant _ _ _))

theorem read_binary : (Shape.read values).binary = values.all fun v => v.toNat ≤ 1 := by
  have h := congrArg (fun s : Scan => s.shape.binary) (unpriced_lastScan values)
  rw [read_eq]
  exact (constant_closeRun _ _).2.1.trans (h.trans (Scan.foldl_binary _ _ _))

theorem read_runStats : (Shape.read values).runStats =
    ((Rle.runs values).length, ((Rle.runs values).map Prod.snd).foldl Nat.min (2 ^ 64 - 1),
      ((Rle.runs values).map Prod.snd).foldl Nat.max 0) := by
  have hscan := unpriced_lastScan values
  have hstats : (lastScan values).shape.runStats =
      (lastScan values).unpriced.shape.runStats := rfl
  have hrun : (lastScan values).run = (lastScan values).unpriced.run := rfl
  have hpos : ∀ n ∈ (Rle.runs values).map Prod.snd, 0 < n := by
    intro n hn
    obtain ⟨r, hr, rfl⟩ := List.mem_map.1 hn
    exact Rle.runs_pos values r hr
  have hfresh := Scan.fresh_runStats (values.headD 0) values
    (s := Scan.unpriced { shape := { len := values.length }, prev := values.headD 0 }) rfl
  rw [foldl_addRun hpos, List.length_map] at hfresh
  rw [read_eq]
  change (Shape.closeRun _ _).runStats = _
  rw [Shape.runStats_closeRun, hstats, hrun, hscan, hfresh]
  exact congrArg (fun n => (n, _)) (Nat.zero_add _)

variable {values} (hne : values ≠ [])

include hne

theorem read_prices : (Shape.read values).prices =
    (least values, greatest values, (ForBitpack.encode values).length,
      (ForBitpack.encode (deltas (values.headD 0) values)).length,
      (Patch.encode (deltas (values.headD 0) values)).length) := by
  have hblocks := Scan.blocks_prices (values.headD 0) values
    { shape := { len := values.length }, prev := values.headD 0 }
  rw [read_eq]
  change (Shape.closeRun _ _).prices = _
  rw [Shape.prices_closeRun, lastScan, hblocks, foldl_minWord hne, foldl_maxWord hne,
    ForBitpack.encode_eq, ForBitpack.encode_eq, Patch.encode_eq, List.length_append,
    List.length_append, List.length_append, length_leBytes, length_leBytes]

end

end Zu.Encoding
