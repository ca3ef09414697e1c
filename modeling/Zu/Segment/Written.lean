import Zu.Segment.Rows

/-!
# The metas of written segments

The meta of every segment a writer makes is read back as it was. The bound a decoder puts
on the count of values lets all of them by, and no segment it stops is one a reader reads.
-/

namespace Zu.Segment

open Lib Encoding File

theorem toNat_ofNat_of_lt {w n : ℕ} (h : n < 2 ^ w) : (BitVec.ofNat w n).toNat = n :=
  (BitVec.toNat_ofNat n w).trans (Nat.mod_eq_of_lt h)

/-- A payload that was placed: where it starts, and the blocks it takes. -/
theorem placed_sound (f : PackFile) {payload : Bytes} (hlen : payload.length < 2 ^ 63) :
    (BitVec.ofNat 32 (f.packBytes payload).2.1).toNat < blockSize ∧
      (BitVec.ofNat 32 (f.packBytes payload).2.1).toNat + (BitVec.ofNat 64 payload.length).toNat <
        2 ^ 64 ∧
      divCeil ((BitVec.ofNat 32 (f.packBytes payload).2.1).toNat +
        (BitVec.ofNat 64 payload.length).toNat) blockSize = (f.packBytes payload).1.length := by
  obtain ⟨hstart, hblocks⟩ := f.packBytes_blocks payload
  have hsize : blockSize = 32768 := rfl
  rw [toNat_ofNat_of_lt (show (f.packBytes payload).2.1 < 2 ^ 32 by omega),
    toNat_ofNat_of_lt (show payload.length < 2 ^ 64 by omega)]
  exact ⟨hstart, by omega, hblocks.symm⟩

/-! ### Segments of words -/

namespace MiniBlock

theorem least_le_greatest (values : List Word) : (least values).toNat ≤ (greatest values).toNat := by
  cases values with
  | nil => exact le_rfl
  | cons v values => exact (least_le List.mem_cons_self).trans (le_greatest List.mem_cons_self)

theorem store_sound {crc32c : Bytes → BitVec 32} {f : PackFile} {values : Slice Word 8} {l : Laid}
    (hends : l.ends.length = divCeil values.items.length chunkRows)
    (hfences : l.fences.length = divCeil values.items.length chunkRows)
    {out : SegmentMeta × PackFile} (h : store crc32c f values.items l = .ok out) : out.1.Sound := by
  obtain ⟨_, hroom, h⟩ := except_bind_ok.1 h
  have hlt := Checked.withCapacity_ok hroom
  have hfit := values.fits
  generalize hpayload : leBytes 4 l.ends.length ++ (l.ends.flatMap (leBytes 4) ++
    ((l.fences.flatMap fun w => leBytes 8 w.toNat) ++ l.body)) = payload at h
  have hwords : (l.fences.flatMap fun w => leBytes 8 w.toNat).length = 8 * l.fences.length := by
    simp [Nat.mul_comm]
  have hlen : payload.length = 4 + divCeil values.items.length chunkRows * 12 + l.body.length := by
    rw [← hpayload, List.length_append, List.length_append, List.length_append, length_leBytes,
      length_flatMap_leBytes, hwords, hends, hfences]
    omega
  rw [hends] at hlt
  obtain ⟨hstart, hspan, hblocks⟩ := placed_sound f (show payload.length < 2 ^ 63 by omega)
  rw [← Except.ok.inj h]
  exact
    { zone := least_le_greatest _
      start := hstart
      span := hspan
      blocks := hblocks
      count := by
        dsimp only [SegmentMeta.overBound]
        rw [toNat_ofNat_of_lt (by omega), toNat_ofNat_of_lt (by omega), hlen]
        omega }

theorem length_pushChunk {l l' : Laid} {chunk : List Word} {bytes : Bytes}
    (h : pushChunk l chunk bytes = .ok l') :
    l'.ends.length = l.ends.length + 1 ∧ l'.fences.length = l.fences.length + 1 := by
  rw [pushChunk] at h
  split_ifs at h
  rw [← Except.ok.inj h]
  exact ⟨List.length_append, List.length_append⟩

theorem length_foldlM {enc : List Word → Bytes} {cs : List (List Word)} {l l' : Laid}
    (h : cs.foldlM (fun l chunk => pushChunk l chunk (enc chunk)) l = .ok l') :
    l'.ends.length = l.ends.length + cs.length ∧ l'.fences.length = l.fences.length + cs.length := by
  induction cs generalizing l with
  | nil =>
      rw [← Except.ok.inj h]
      exact ⟨rfl, rfl⟩
  | cons chunk cs ih =>
      rw [List.foldlM_cons] at h
      obtain ⟨next, hpush, h⟩ := except_bind_ok.1 h
      obtain ⟨hends, hfences⟩ := length_pushChunk hpush
      obtain ⟨hends', hfences'⟩ := ih h
      rw [List.length_cons]
      constructor <;> omega

theorem length_rewriteChunks {old : SegmentMeta} {index body : Bytes} {dirty : Finset ℕ} {i prev : ℕ}
    {cs : List (List Word)} {l l' : Laid}
    (h : rewriteChunks old index body dirty i prev l cs = .ok l') :
    l'.ends.length = l.ends.length + cs.length ∧ l'.fences.length = l.fences.length + cs.length := by
  induction cs generalizing i prev l with
  | nil =>
      rw [← Except.ok.inj h]
      exact ⟨rfl, rfl⟩
  | cons chunk cs ih =>
      obtain ⟨kept, -, h⟩ := except_bind_ok.1 h
      obtain ⟨next, hpush, h⟩ := except_bind_ok.1 h
      obtain ⟨hends, hfences⟩ := length_pushChunk hpush
      obtain ⟨hends', hfences'⟩ := ih h
      rw [List.length_cons]
      constructor <;> omega

theorem writeSegment_sound {crc32c : Bytes → BitVec 32} {f : PackFile} {values : Slice Word 8}
    {out : SegmentMeta × PackFile} (h : writeSegment crc32c f values = .ok out) : out.1.Sound := by
  obtain ⟨laid, hlaid, h⟩ := except_bind_ok.1 h
  obtain ⟨hends, hfences⟩ := length_foldlM (Checked.ofExcept_ok.1 hlaid)
  rw [FullZip.length_chunks_eq] at hends hfences
  exact store_sound (hends.trans (Nat.zero_add _)) (hfences.trans (Nat.zero_add _)) h

theorem rewriteSegment_sound {crc32c : Bytes → BitVec 32} {pin : Pin} {f : PackFile}
    {old : SegmentMeta} {values : Slice Word 8} {dirty : Finset ℕ} {out : SegmentMeta × PackFile}
    (h : rewriteSegment crc32c pin f old values dirty = .ok out) : out.1.Sound := by
  rw [rewriteSegment] at h
  split at h
  case isTrue => exact writeSegment_sound h
  case isFalse =>
    obtain ⟨payload, -, h⟩ := except_bind_ok.1 h
    obtain ⟨parts, -, h⟩ := except_bind_ok.1 h
    obtain ⟨laid, hlaid, h⟩ := except_bind_ok.1 h
    obtain ⟨hends, hfences⟩ := length_rewriteChunks (Checked.ofExcept_ok.1 hlaid)
    rw [FullZip.length_chunks_eq] at hends hfences
    exact store_sound (hends.trans (Nat.zero_add _)) (hfences.trans (Nat.zero_add _)) h

theorem long_of_readSegment {crc32c : Bytes → BitVec 32} {pin : Pin} {m : SegmentMeta}
    {values : List Word} (h : readSegment crc32c pin m = .ok values) :
    m.structural = .miniBlock ∧ 4 + m.chunkCount * 12 ≤ m.payloadLen.toNat := by
  obtain ⟨payload, hread, h⟩ := except_bind_ok.1 h
  obtain ⟨hstructural, _, -, -, hlen, -⟩ := readPayload_ok hread
  obtain ⟨parts, hparts, -⟩ := except_bind_ok.1 (Checked.ofExcept_ok.1 h)
  rw [indexAndBody] at hparts
  split_ifs at hparts with h1 h2 h3 h4
  exact ⟨hstructural, by omega⟩

end MiniBlock

/-! ### Blob columns -/

namespace FullZip

theorem layOut_ok {compEnds rawEnds : List ℕ} {body payload : Bytes}
    (h : layOut compEnds rawEnds body = .ok payload) (hraw : rawEnds.length = compEnds.length) :
    payload.length = 4 + compEnds.length * 16 + body.length ∧ payload.length < 2 ^ 63 := by
  obtain ⟨_, hroom, h⟩ := except_bind_ok.1 h
  have hlt := Checked.withCapacity_ok hroom
  have hlen : payload.length = 4 + compEnds.length * 16 + body.length := by
    rw [← Except.ok.inj h, List.length_append, List.length_append, List.length_append, length_leBytes,
      length_flatMap_leBytes, length_flatMap_leBytes, hraw]
    omega
  exact ⟨hlen, by omega⟩

theorem store_sound (crc32c : Bytes → BitVec 32) (f : PackFile) {payload : Bytes}
    {valueCount : ℕ} (valueBytes : ℕ) (hcount : valueCount < 2 ^ 64)
    (hlen : 4 + divCeil valueCount chunkRows * 16 ≤ payload.length) (hlt : payload.length < 2 ^ 63) :
    (store crc32c f payload valueCount valueBytes).1.Sound := by
  obtain ⟨hstart, hspan, hblocks⟩ := placed_sound f hlt
  exact
    { zone := le_rfl
      start := hstart
      span := hspan
      blocks := hblocks
      count := by
        dsimp only [store, SegmentMeta.overBound]
        rw [toNat_ofNat_of_lt (by omega), toNat_ofNat_of_lt (by omega)]
        omega }

theorem encodePayloadWith_sound {values : Slice Bytes 16} {table : Option (Fsst.Table × ℕ × ℕ)}
    {encoded : Bytes × ℕ} (h : encodePayloadWith values table = .ok encoded)
    (crc32c : Bytes → BitVec 32) (f : PackFile) :
    (store crc32c f encoded.1 values.items.length encoded.2).1.Sound := by
  obtain ⟨enc, l, hencoded⟩ := encoded_of_ok h
  have hlen := hencoded.length_payload
  have hfits := hencoded.fits
  have hvalues := values.fits
  rw [length_chunks_eq] at hlen hfits
  exact store_sound crc32c f _ (by omega) (by omega) (by omega)

theorem writeBlobSegment_sound {crc32c : Bytes → BitVec 32} {f : PackFile} {values : Slice Bytes 16}
    {out : SegmentMeta × PackFile} (h : writeBlobSegment crc32c f values = .ok out) :
    out.1.Sound := by
  obtain ⟨encoded, hencoded, h⟩ := except_bind_ok.1 h
  rw [← Except.ok.inj h]
  exact encodePayloadWith_sound hencoded crc32c f

theorem rewriteBlobReordered_sound {crc32c : Bytes → BitVec 32} {pin : Pin} {f : PackFile}
    {old : SegmentMeta} {values : Slice Bytes 16} {out : SegmentMeta × PackFile}
    (h : rewriteBlobReordered crc32c pin old f values = .ok out) : out.1.Sound := by
  obtain ⟨table, -, h⟩ := except_bind_ok.1 h
  obtain ⟨encoded, hencoded, h⟩ := except_bind_ok.1 h
  rw [← Except.ok.inj h]
  exact encodePayloadWith_sound hencoded crc32c f

/-- An end of each kind for one chunk more. -/
def Longer (l l' : Laid) (n : ℕ) : Prop :=
  l'.compEnds.length = l.compEnds.length + n ∧ l'.rawEnds.length = l.rawEnds.length + n

theorem longer_keepChunk {rows : ℕ} {l l' : Laid} {chunk : OldChunk}
    (h : keepChunk rows l chunk = .ok l') : Longer l l' 1 := by
  rw [keepChunk] at h
  split_ifs at h
  rw [← Except.ok.inj h]
  exact ⟨List.length_append, List.length_append⟩

theorem longer_pushChunk {enc : ChunkEncoder} {l l' : Laid} {chunk : List Bytes}
    (h : pushChunk enc l chunk = .ok l') : Longer l l' 1 := by
  obtain ⟨z, -, h⟩ := except_bind_ok.1 h
  rw [← Except.ok.inj h]
  exact ⟨List.length_append, List.length_append⟩

theorem longer_nextChunk {old : SegmentMeta} {u : Update} {newCount : ℕ} {enc : ChunkEncoder} {i : ℕ}
    {l : Laid} {span : Option OldChunk} {fresh : List (List Bytes)} {next : Laid × List (List Bytes)}
    (h : nextChunk old u newCount enc i l span fresh = .ok next) : Longer l next.1 1 := by
  unfold nextChunk at h
  split at h
  case isTrue =>
    cases span with
    | none => exact nomatch h
    | some chunk =>
        obtain ⟨laid, hkeep, h⟩ := except_bind_ok.1 h
        rw [← Except.ok.inj h]
        exact longer_keepChunk (Checked.ofExcept_ok.1 hkeep)
  case isFalse =>
    cases fresh with
    | nil => exact nomatch h
    | cons rows fresh =>
        obtain ⟨laid, hpush, h⟩ := except_bind_ok.1 h
        rw [← Except.ok.inj h]
        exact longer_pushChunk (Checked.ofExcept_ok.1 hpush)

theorem longer_rewriteChunks {old : SegmentMeta} {u : Update} {newCount : ℕ} {enc : ChunkEncoder}
    {payload body : Bytes} {n i prevComp prevRaw : ℕ} {fresh : List (List Bytes)} {l l' : Laid}
    (h : rewriteChunks old u newCount enc payload body n i prevComp prevRaw fresh l = .ok l') :
    Longer l l' n := by
  induction n generalizing i prevComp prevRaw fresh l with
  | zero =>
      rw [← Except.ok.inj h]
      exact ⟨rfl, rfl⟩
  | succ n ih =>
      obtain ⟨span, -, h⟩ := except_bind_ok.1 h
      obtain ⟨next, hnext, h⟩ := except_bind_ok.1 h
      obtain ⟨hcomp, hraw⟩ := longer_nextChunk hnext
      obtain ⟨hcomp', hraw'⟩ := ih h
      constructor <;> omega

theorem word_lt {checks : Bool} {n w : ℕ} (h : (Checked.word checks n : Checked ZuError ℕ) = .ok w) :
    w < 2 ^ 64 := by
  rw [Checked.word] at h
  split_ifs at h with hlt
  · rw [← Except.ok.inj h]
    exact hlt
  · rw [← Except.ok.inj h]
    exact Nat.mod_lt _ (Nat.two_pow_pos 64)

theorem rewriteBlobSegment_sound {crc32c : Bytes → BitVec 32} {pin : Pin} {old : SegmentMeta}
    {checks : Bool} {f : PackFile} {u : Update} {out : SegmentMeta × PackFile}
    (h : rewriteBlobSegment crc32c pin old checks f u = .ok out) : out.1.Sound := by
  rw [rewriteBlobSegment] at h
  dsimp only at h
  split at h
  case h_1 => exact nomatch h
  case h_2 =>
    obtain ⟨newCount, hcount, h⟩ := except_bind_ok.1 h
    obtain ⟨payload, -, h⟩ := except_bind_ok.1 h
    split at h
    case isTrue => exact nomatch h
    case isFalse =>
      split at h
      case isTrue => exact nomatch h
      case isFalse =>
        split at h
        case isTrue => exact nomatch h
        case isFalse =>
          obtain ⟨fresh, -, h⟩ := except_bind_ok.1 h
          obtain ⟨laid, hlaid, h⟩ := except_bind_ok.1 h
          obtain ⟨written, hwritten, h⟩ := except_bind_ok.1 h
          obtain ⟨hcomp, hraw⟩ := longer_rewriteChunks hlaid
          obtain ⟨hlen, hlt⟩ := layOut_ok hwritten (hraw.trans hcomp.symm)
          rw [hcomp] at hlen
          rw [← Except.ok.inj h]
          exact store_sound crc32c f _ (word_lt hcount) (by simp at hlen; omega) hlt

theorem long_of_readBlobSegment {crc32c : Bytes → BitVec 32} {pin : Pin} {m : SegmentMeta}
    {out full : Out} (h : (readBlobSegment crc32c pin m).exec out = (.ok (), full)) :
    m.structural = .fullZip ∧ 4 + m.chunkCount * 16 ≤ m.payloadLen.toNat := by
  obtain ⟨hstructural, _, payload, vss, -, -, hlen, hholds, -⟩ := readBlobSegment_ok h
  have hlong := hholds.long
  rw [hholds.count, hlen] at hlong
  exact ⟨hstructural, hlong⟩

end FullZip

/-! ### Columns of byte rows -/

namespace Rows

open FullZip

theorem length_strideRows {stride : ℕ} {values : List Bytes} {rows : Bytes}
    (h : strideRows stride values = .ok rows) : rows.length = values.length * stride := by
  induction values generalizing rows with
  | nil =>
      rw [← Except.ok.inj h]
      exact (Nat.zero_mul _).symm
  | cons v values ih =>
      rw [strideRows] at h
      split at h
      case isTrue => exact nomatch h
      case isFalse hv =>
        obtain ⟨rest, hrest, h⟩ := except_bind_ok.1 h
        rw [← Except.ok.inj h, List.length_append, ih hrest, not_not.1 hv, List.length_cons,
          Nat.succ_mul, Nat.add_comm]

theorem uniformLen_pos {values : List Bytes} {stride : ℕ} (h : uniformLen values = some stride) :
    0 < stride := by
  cases values with
  | nil => exact nomatch h
  | cons v values =>
      rw [uniformLen] at h
      split_ifs at h with hv
      rw [← Option.some.inj h]
      exact hv.1

theorem writeStrideSegment_sound {crc32c : Bytes → BitVec 32} {f : PackFile} {values : Slice Bytes 16}
    {stride : ℕ} (hstride : 0 < stride) {out : SegmentMeta × PackFile}
    (h : writeStrideSegment crc32c f values stride = .ok out) : out.1.Sound := by
  obtain ⟨_, hroom, h⟩ := except_bind_ok.1 h
  obtain ⟨rows, hrows, h⟩ := except_bind_ok.1 h
  have hlt := Checked.withCapacity_ok hroom
  have hvalues := values.fits
  have hlen : (leBytes 4 stride ++ rows).length = 4 + values.items.length * stride := by
    rw [List.length_append, length_leBytes, length_strideRows (Checked.ofExcept_ok.1 hrows)]
  have hle : values.items.length ≤ values.items.length * stride := Nat.le_mul_of_pos_right _ hstride
  generalize leBytes 4 stride ++ rows = payload at h hlen
  obtain ⟨hstart, hspan, hblocks⟩ := placed_sound f (show payload.length < 2 ^ 63 by omega)
  rw [← Except.ok.inj h]
  exact
    { zone := le_rfl
      start := hstart
      span := hspan
      blocks := hblocks
      count := by
        dsimp only [SegmentMeta.overBound]
        rw [toNat_ofNat_of_lt (by omega), toNat_ofNat_of_lt (by omega)]
        omega }

theorem writeRows_sound {crc32c : Bytes → BitVec 32} {f : PackFile} {values : Slice Bytes 16}
    {out : SegmentMeta × PackFile} (h : writeRows crc32c f values = .ok out) : out.1.Sound := by
  rw [writeRows] at h
  split at h
  case h_1 hlen => exact writeStrideSegment_sound (uniformLen_pos hlen) h
  case h_2 => exact writeBlobSegment_sound h

theorem rewriteRows_sound {crc32c : Bytes → BitVec 32} {pin : Pin} {checks : Bool} {f : PackFile}
    {old : SegmentMeta} {u : Update} {out : SegmentMeta × PackFile}
    (h : rewriteRows crc32c pin checks f old u = .ok out) : out.1.Sound := by
  rw [rewriteRows] at h
  split at h
  case isTrue => exact rewriteBlobSegment_sound h
  case isFalse =>
    split at h
    case h_1 => exact nomatch h
    case h_2 =>
      split at h
      case h_1 => exact nomatch h
      case h_2 =>
        obtain ⟨values, -, h⟩ := except_bind_ok.1 h
        exact writeRows_sound h

theorem rewriteRowsReordered_sound {crc32c : Bytes → BitVec 32} {pin : Pin} {f : PackFile}
    {old : SegmentMeta} {values : Slice Bytes 16} {out : SegmentMeta × PackFile}
    (h : rewriteRowsReordered crc32c pin f old values = .ok out) : out.1.Sound := by
  rw [rewriteRowsReordered] at h
  split at h
  case h_1 hlen => exact writeStrideSegment_sound (uniformLen_pos hlen) h
  case h_2 => exact writeBlobSegment_sound h
  case h_3 => exact rewriteBlobReordered_sound h

/-- A column of rows of one length that is read has a byte for each of them. -/
theorem long_of_strideOf {pin : Pin} {m : SegmentMeta} {stride : ℕ}
    (h : strideOf pin m = .ok stride) : 4 + m.valueCount.toNat ≤ m.payloadLen.toNat := by
  obtain ⟨head, -, h⟩ := except_bind_ok.1 h
  dsimp only at h
  split_ifs at h with hzero hwide hwant
  obtain ⟨hwant, -⟩ := not_or.1 hwant
  have hle : m.valueCount.toNat ≤ m.valueCount.toNat * field head 0 4 :=
    Nat.le_mul_of_pos_right _ (Nat.pos_of_ne_zero hzero)
  omega

end Rows

/-- What reads a segment whole, whatever its layout is. -/
inductive Readable (crc32c : Bytes → BitVec 32) (pin : Pin) (m : SegmentMeta) : Prop
  | words {values : List Word} : MiniBlock.readSegment crc32c pin m = .ok values → Readable crc32c pin m
  | rows {out full : FullZip.Out} :
      (Rows.readRows crc32c pin m).exec out = (.ok (), full) → Readable crc32c pin m

/-- The metas the writers make. -/
inductive Written (crc32c : Bytes → BitVec 32) (pin : Pin) : SegmentMeta → Prop
  | segment {f f' : PackFile} {values : Slice Word 8} {m : SegmentMeta} :
      MiniBlock.writeSegment crc32c f values = .ok (m, f') → Written crc32c pin m
  | rewritten {f f' : PackFile} {old : SegmentMeta} {values : Slice Word 8} {dirty : Finset ℕ}
      {m : SegmentMeta} :
      MiniBlock.rewriteSegment crc32c pin f old values dirty = .ok (m, f') → Written crc32c pin m
  | blob {f f' : PackFile} {values : Slice Bytes 16} {m : SegmentMeta} :
      FullZip.writeBlobSegment crc32c f values = .ok (m, f') → Written crc32c pin m
  | reorderedBlob {f f' : PackFile} {old : SegmentMeta} {values : Slice Bytes 16} {m : SegmentMeta} :
      FullZip.rewriteBlobReordered crc32c pin old f values = .ok (m, f') → Written crc32c pin m
  | rewrittenBlob {f f' : PackFile} {old : SegmentMeta} {checks : Bool} {u : FullZip.Update}
      {m : SegmentMeta} :
      FullZip.rewriteBlobSegment crc32c pin old checks f u = .ok (m, f') → Written crc32c pin m
  | rows {f f' : PackFile} {values : Slice Bytes 16} {m : SegmentMeta} :
      Rows.writeRows crc32c f values = .ok (m, f') → Written crc32c pin m
  | rewrittenRows {f f' : PackFile} {old : SegmentMeta} {checks : Bool} {u : FullZip.Update}
      {m : SegmentMeta} :
      Rows.rewriteRows crc32c pin checks f old u = .ok (m, f') → Written crc32c pin m
  | reorderedRows {f f' : PackFile} {old : SegmentMeta} {values : Slice Bytes 16} {m : SegmentMeta} :
      Rows.rewriteRowsReordered crc32c pin f old values = .ok (m, f') → Written crc32c pin m

theorem Written.sound {crc32c : Bytes → BitVec 32} {pin : Pin} {m : SegmentMeta}
    (h : Written crc32c pin m) : m.Sound := by
  cases h with
  | segment h => exact MiniBlock.writeSegment_sound h
  | rewritten h => exact MiniBlock.rewriteSegment_sound h
  | blob h => exact FullZip.writeBlobSegment_sound h
  | reorderedBlob h => exact FullZip.rewriteBlobReordered_sound h
  | rewrittenBlob h => exact FullZip.rewriteBlobSegment_sound h
  | rows h => exact Rows.writeRows_sound h
  | rewrittenRows h => exact Rows.rewriteRows_sound h
  | reorderedRows h => exact Rows.rewriteRowsReordered_sound h

/-- What is read whole is within the bound of its layout. -/
theorem Readable.not_over {crc32c : Bytes → BitVec 32} {pin : Pin} {m : SegmentMeta}
    (h : Readable crc32c pin m) :
    ¬ SegmentMeta.overBound m.structural m.valueCount.toNat m.payloadLen.toNat := by
  cases h with
  | words h =>
      obtain ⟨hstructural, hlong⟩ := MiniBlock.long_of_readSegment h
      rw [SegmentMeta.chunkCount] at hlong
      rw [hstructural]
      dsimp only [SegmentMeta.overBound]
      omega
  | rows h =>
      rw [Rows.readRows] at h
      split at h
      case isTrue =>
        obtain ⟨hstructural, hlong⟩ := FullZip.long_of_readBlobSegment h
        rw [SegmentMeta.chunkCount] at hlong
        rw [hstructural]
        dsimp only [SegmentMeta.overBound]
        omega
      case isFalse hstride =>
        obtain ⟨stride, _, hread, -⟩ := exec_bind_ok h
        rw [FullZip.exec_liftExcept] at hread
        have hlong := Rows.long_of_strideOf (Checked.ofExcept_ok.1 (Prod.mk.inj hread).1)
        rw [not_not.1 hstride]
        dsimp only [SegmentMeta.overBound]
        omega

/-- The meta of a written segment is read back, among other bytes or alone, and of the
counts it could claim just those past the bound of its layout are refused, which no
segment of its length is read with. -/
theorem written_meta_round_trip {crc32c : Bytes → BitVec 32} {pin : Pin} {m : SegmentMeta}
    (h : Written crc32c pin m) (hlen : m.blocks.length < 2 ^ 32) :
    (∀ front back : Bytes, SegmentMeta.decode (front ++ (m.encode ++ back)) front.length =
        .ok (m, front.length + m.encode.length)) ∧
      ∀ count : Word,
        SegmentMeta.decode ({ m with valueCount := count } : SegmentMeta).encode 0 =
            (if SegmentMeta.overBound m.structural count.toNat m.payloadLen.toNat then
              .error (corrupt "value count needs more payload than there is")
            else
              .ok ({ m with valueCount := count },
                ({ m with valueCount := count } : SegmentMeta).encode.length)) ∧
          (SegmentMeta.overBound m.structural count.toNat m.payloadLen.toNat →
            ∀ (crc32c : Bytes → BitVec 32) (pin : Pin) (claimed : SegmentMeta),
              claimed.structural = m.structural → claimed.payloadLen = m.payloadLen →
                claimed.valueCount = count → ¬ Readable crc32c pin claimed) := by
  have hsound := h.sound
  constructor
  · exact hsound.decodeAt_encodeAt hlen (fun hpacked => nomatch hpacked)
  · intro count
    constructor
    · have hdecode := @SegmentMeta.decodeAt_encodeAt { m with valueCount := count } hlen true
        (fun hpacked => nomatch hpacked) [] []
      rw [List.nil_append, List.append_nil, List.length_nil, Nat.zero_add] at hdecode
      rw [SegmentMeta.decode, SegmentMeta.encode, hdecode, if_neg (Nat.not_lt.2 hsound.zone),
        if_neg (Nat.not_le.2 hsound.start), if_neg (Nat.not_le.2 hsound.span),
        if_neg (not_not.2 hsound.blocks)]
    · intro hover crc32c pin claimed hstructural hpayload hcount hread
      apply hread.not_over
      rw [hstructural, hpayload, hcount]
      exact hover

def twoRowsCrc (payload : Bytes) : BitVec 32 :=
  if payload = [2, 0, 0, 0, 1, 2, 3, 4] then 0x7f078ff7 else 0

def emptyFile : PackFile where
  free := []
  blockCount := 0
  blocks := fun _ => []
  pack := none

def twoRows : SegmentMeta where
  valueCount := 2
  payloadLen := 8
  uncompressedBytes := 4
  min := 0
  max := 0
  crc := 0x7f078ff7
  structural := .stride
  sorted := false
  start := 0
  blocks := [1]

theorem twoRows_written (pin : Pin) : Written twoRowsCrc pin twoRows :=
  Written.rows (show Rows.writeRows twoRowsCrc emptyFile ⟨[[1, 2], [3, 4]], by decide⟩ =
    .ok (twoRows, _) from rfl)

theorem twoRows_round_trip : SegmentMeta.decode twoRows.encode 0 = .ok (twoRows, 61) :=
  (written_meta_round_trip (twoRows_written fun _ => .error (corrupt "")) (by decide)).1 [] []

/-- A meta of sixteen bytes that is said to hold a string, which would take an index entry
of sixteen after the count of the chunks. -/
def shortMeta : SegmentMeta where
  valueCount := 1
  payloadLen := 16
  uncompressedBytes := 0
  min := 0
  max := 0
  crc := 0
  structural := .fullZip
  sorted := false
  start := 0
  blocks := [1]

theorem shortMeta_decoded : SegmentMeta.decode shortMeta.encode 0 = .ok (shortMeta, 61) ∧
    ∀ (crc32c : Bytes → BitVec 32) (pin : Pin), ¬ Readable crc32c pin shortMeta := by
  constructor
  · have hsound : shortMeta.Sound :=
      { zone := by decide, start := by decide, span := by decide, blocks := by decide,
        count := by decide }
    exact @SegmentMeta.Sound.decodeAt_encodeAt shortMeta hsound (by decide) true
      (fun hpacked => nomatch hpacked) [] []
  · intro crc32c pin hread
    cases hread with
    | words h => exact nomatch (MiniBlock.long_of_readSegment h).1
    | rows h =>
        rw [Rows.readRows, if_pos (by decide)] at h
        exact absurd (FullZip.long_of_readBlobSegment h).2 (by decide)

end Zu.Segment
