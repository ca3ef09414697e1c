import Zu.Segment.Unzip

/-!
# The round trip of a blob payload

What `encode_payload` lays out holds the strings it was given, chunk by chunk, as long as
the count of the chunks fits its field.
-/

namespace Zu.Segment

open Lib Encoding

theorem length_flatMap_leBytes (k : ℕ) (xs : List ℕ) :
    (xs.flatMap (leBytes k)).length = k * xs.length := by
  induction xs with
  | nil => rfl
  | cons x xs ih =>
      rw [List.flatMap_cons, List.length_append, length_leBytes, ih, List.length_cons, Nat.mul_succ,
        Nat.add_comm]

theorem field_flatMap {xs : List ℕ} {j : ℕ} {x : ℕ} (hx : xs[j]? = some x) {bytes front back : Bytes}
    (h : bytes = front ++ (xs.flatMap (leBytes 8) ++ back)) :
    field bytes (front.length + j * 8) 8 = x % 256 ^ 8 := by
  obtain ⟨hj, rfl⟩ := List.getElem?_eq_some_iff.1 hx
  have hsplit : xs.flatMap (leBytes 8) = (xs.take j).flatMap (leBytes 8) ++
      (leBytes 8 xs[j] ++ (xs.drop (j + 1)).flatMap (leBytes 8)) := by
    rw [← List.flatMap_cons, List.getElem_cons_drop, ← List.flatMap_append, List.take_append_drop]
  have hbytes : bytes = (front ++ (xs.take j).flatMap (leBytes 8)) ++
      (leBytes 8 xs[j] ++ ((xs.drop (j + 1)).flatMap (leBytes 8) ++ back)) := by
    rw [h, hsplit]
    simp only [List.append_assoc]
  apply SegmentMeta.field_at hbytes
  rw [List.length_append, length_flatMap_leBytes, List.length_take_of_le hj.le, Nat.mul_comm]

namespace FullZip

def zipOf (chunk : List Bytes) : Bytes := chunk.flatMap zipped

def packOf (enc : ChunkEncoder) (chunk : List Bytes) : Bytes := enc.packChunk (zipOf chunk)

theorem zipChunk_ok {z z' : Bytes} {chunk : List Bytes} (hz : z.length ≤ maxChunkRaw) :
    ChunkEncoder.zipChunk z chunk = .ok z' ↔ z' = z ++ zipOf chunk ∧ z'.length ≤ maxChunkRaw := by
  induction chunk generalizing z with
  | nil =>
      rw [ChunkEncoder.zipChunk, zipOf, List.flatMap_nil, List.append_nil]
      constructor
      · intro h
        rw [← Except.ok.inj h]
        exact ⟨rfl, hz⟩
      · rintro ⟨rfl, -⟩
        rfl
  | cons v chunk ih =>
      have hlen : (z ++ zipped v).length = z.length + 4 + v.length := by
        rw [List.length_append, length_zipped, Nat.add_assoc]
      have hall : z ++ zipOf (v :: chunk) = (z ++ zipped v) ++ zipOf chunk := by
        rw [zipOf, List.flatMap_cons, List.append_assoc, zipOf]
      rw [ChunkEncoder.zipChunk, hall]
      split
      case isTrue hlong =>
        constructor
        · exact fun h => nomatch h
        · rintro ⟨rfl, hshort⟩
          rw [List.length_append, hlen] at hshort
          omega
      case isFalse hshort =>
        apply ih
        rw [hlen]
        omega

theorem unpackChunk_packChunk (enc : ChunkEncoder) {z : Bytes} (hz : z.length < 2 ^ 32) :
    unpackChunk (enc.packChunk z) z.length = .ok z := by
  have hfsst : Fsst.decode (enc.pack z) z.length = .ok z := by
    rw [ChunkEncoder.pack]
    split
    case isTrue =>
      dsimp only
      split
      · exact Fsst.decode_encode _ hz le_rfl
      · exact Fsst.decode_encode _ hz le_rfl
    case isFalse => exact Fsst.decode_encode _ hz le_rfl
  rw [ChunkEncoder.packChunk]
  split
  case isTrue =>
    change (do
      let z' ← Fsst.decode (enc.pack z) z.length
      if z'.length ≠ z.length then .error (corrupt "fsst chunk disagrees with its zipped size")
      else .ok z') = Except.ok z
    rw [hfsst, ok_bind, if_neg (not_not.2 rfl)]
  case isFalse =>
    change (if z.length ≠ z.length then
      .error (corrupt "plain chunk disagrees with its zipped size") else .ok z) = Except.ok z
    rw [if_neg (not_not.2 rfl)]

/-- How far a list of byte strings comes, one after another. -/
def endsOf (parts : List Bytes) : List ℕ :=
  (List.range parts.length).map fun j => ((parts.take (j + 1)).flatten).length

theorem endsOf_concat (parts : List Bytes) (part : Bytes) :
    endsOf (parts ++ [part]) = endsOf parts ++ [(parts ++ [part]).flatten.length] := by
  rw [endsOf, endsOf, List.length_append, List.length_singleton, List.range_succ, List.map_append,
    List.map_singleton]
  congr 1
  · apply List.map_congr_left
    intro j hj
    have hlt : j + 1 ≤ parts.length := List.mem_range.1 hj
    rw [List.take_append_of_le_length hlt]
  · rw [List.take_of_length_le (by rw [List.length_append, List.length_singleton])]

/-- What laying out the chunks comes to. -/
structure LaidAs (enc : ChunkEncoder) (cs : List (List Bytes)) (l : Laid) : Prop where
  body : l.body = (cs.map (packOf enc)).flatten
  compEnds : l.compEnds = endsOf (cs.map (packOf enc))
  rawEnds : l.rawEnds = (endsOf (cs.map zipOf)).map fun n => n % 2 ^ 64
  rawTotal : l.rawTotal = (cs.map zipOf).flatten.length % 2 ^ 64
  valueBytes : l.valueBytes = cs.flatten.flatten.length % 2 ^ 64

theorem pushChunk_ok {enc : ChunkEncoder} {cs : List (List Bytes)} {l l' : Laid}
    (hl : LaidAs enc cs l) {chunk : List Bytes} (h : pushChunk enc l chunk = .ok l') :
    (zipOf chunk).length ≤ maxChunkRaw ∧ LaidAs enc (cs ++ [chunk]) l' := by
  obtain ⟨z, hz, hl'⟩ := except_bind_ok.1 h
  obtain ⟨rfl, hsmall⟩ := (zipChunk_ok (Nat.zero_le _)).1 hz
  rw [List.nil_append] at hl' hsmall
  constructor
  · exact hsmall
  · rw [← Except.ok.inj hl']
    exact
      { body := by
          rw [hl.body, List.map_append, List.flatten_append, List.map_singleton,
            List.flatten_singleton]
          rfl
        compEnds := by
          rw [List.map_append, List.map_singleton, endsOf_concat, hl.compEnds, hl.body,
            List.flatten_append, List.flatten_singleton]
          rfl
        rawEnds := by
          rw [List.map_append, List.map_singleton, endsOf_concat, List.map_append, hl.rawEnds,
            hl.rawTotal, List.flatten_append, List.flatten_singleton, List.length_append,
            List.map_singleton]
          simp only [Nat.mod_add_mod, List.length_append]
        rawTotal := by
          dsimp only
          rw [hl.rawTotal, List.map_append, List.flatten_append, List.map_singleton,
            List.flatten_singleton, List.length_append, Nat.mod_add_mod]
        valueBytes := by
          dsimp only
          rw [hl.valueBytes, List.flatten_append, List.flatten_append, List.flatten_singleton,
            List.length_append, ← List.length_flatten, Nat.mod_add_mod] }

theorem exists_pushChunk (enc : ChunkEncoder) (l : Laid) {chunk : List Bytes}
    (h : (zipOf chunk).length ≤ maxChunkRaw) : ∃ l', pushChunk enc l chunk = .ok l' := by
  have hz := (@zipChunk_ok [] (zipOf chunk) chunk (Nat.zero_le _)).2 ⟨(List.nil_append _).symm, h⟩
  rw [pushChunk, hz]
  exact ⟨_, rfl⟩

theorem laidAs_nil (enc : ChunkEncoder) : LaidAs enc [] {} where
  body := rfl
  compEnds := rfl
  rawEnds := rfl
  rawTotal := rfl
  valueBytes := rfl

theorem foldlM_pushChunk {enc : ChunkEncoder} {cs : List (List Bytes)} {l : Laid}
    (h : cs.foldlM (pushChunk enc) {} = .ok l) :
    (∀ chunk ∈ cs, (zipOf chunk).length ≤ maxChunkRaw) ∧ LaidAs enc cs l := by
  induction cs using List.reverseRecOn generalizing l with
  | nil =>
      rw [← Except.ok.inj h]
      exact ⟨fun _ hc => absurd hc List.not_mem_nil, laidAs_nil enc⟩
  | append_singleton cs chunk ih =>
      rw [List.foldlM_append] at h
      obtain ⟨l', hl', hpush⟩ := except_bind_ok.1 h
      rw [List.foldlM_cons] at hpush
      obtain ⟨l'', hl'', hlast⟩ := except_bind_ok.1 hpush
      obtain ⟨hsmall, hlaid⟩ := ih hl'
      obtain ⟨hchunk, hlaid'⟩ := pushChunk_ok hlaid hl''
      rw [← Except.ok.inj hlast]
      constructor
      · intro c hc
        cases List.mem_append.1 hc with
        | inl hold => exact hsmall c hold
        | inr hnew => exact List.mem_singleton.1 hnew ▸ hchunk
      · exact hlaid'

theorem exists_foldlM (enc : ChunkEncoder) {cs : List (List Bytes)}
    (h : ∀ chunk ∈ cs, (zipOf chunk).length ≤ maxChunkRaw) (l : Laid) :
    ∃ l', cs.foldlM (pushChunk enc) l = .ok l' := by
  induction cs generalizing l with
  | nil => exact ⟨l, rfl⟩
  | cons chunk cs ih =>
      obtain ⟨hchunk, hrest⟩ := List.forall_mem_cons.1 h
      obtain ⟨l', hl'⟩ := exists_pushChunk enc l hchunk
      rw [List.foldlM_cons, hl', ok_bind]
      exact ih hrest l'

theorem short_of_small {chunk : List Bytes} (h : (zipOf chunk).length ≤ maxChunkRaw) : Short chunk := by
  intro v hv
  have hle : (zipped v).length ≤ (zipOf chunk).length := by
    rw [zipOf]
    exact length_le_of_mem_flatMap zipped hv
  rw [length_zipped] at hle
  have hmax : maxChunkRaw < 2 ^ 32 := by decide
  omega

/-- What is laid out is read back chunk by chunk, where the ends of the chunks are. -/
theorem chunksFrom_laid (enc : ChunkEncoder) {cs : List (List Bytes)} {payload : Bytes}
    {valueCount : ℕ} (hbody : payload.drop (4 + cs.length * 16) = (cs.map (packOf enc)).flatten)
    (hcomp : ∀ j < cs.length, compEnd payload j = (((cs.take (j + 1)).map (packOf enc)).flatten).length)
    (hraw : ∀ j < cs.length, rawEnd payload cs.length j = (((cs.take (j + 1)).map zipOf).flatten).length)
    (hrows : ∀ (j : ℕ) (chunk : List Bytes), cs[j]? = some chunk →
      chunk.length = min (valueCount - j * chunkRows) chunkRows)
    (hsmall : ∀ chunk ∈ cs, (zipOf chunk).length ≤ maxChunkRaw) (front back : List (List Bytes))
    (hsplit : cs = front ++ back) :
    ChunksFrom payload valueCount cs.length front.length ((front.map (packOf enc)).flatten).length
      ((front.map zipOf).flatten).length back ((cs.map (packOf enc)).flatten).length := by
  induction back generalizing front with
  | nil =>
      rw [List.append_nil] at hsplit
      rw [ChunksFrom, hsplit]
  | cons chunk back ih =>
      have hat : cs[front.length]? = some chunk := by
        rw [hsplit, List.getElem?_append_right le_rfl, Nat.sub_self]
        rfl
      have hlt : front.length < cs.length := (List.getElem?_eq_some_iff.1 hat).1
      have hmem : chunk ∈ cs := List.mem_of_getElem? hat
      have htake : cs.take (front.length + 1) = front ++ [chunk] := by
        have hassoc : cs = (front ++ [chunk]) ++ back := by
          rw [List.append_assoc]
          exact hsplit
        rw [hassoc]
        exact List.take_left' (by rw [List.length_append, List.length_singleton])
      have hc := hcomp front.length hlt
      have hr := hraw front.length hlt
      rw [htake, List.map_append, List.map_singleton, List.flatten_append, List.flatten_singleton,
        List.length_append] at hc hr
      have hnext := ih (front ++ [chunk]) (by rw [List.append_assoc]; exact hsplit)
      rw [List.length_append, List.length_singleton, List.map_append, List.map_append,
        List.flatten_append, List.flatten_append, List.map_singleton, List.map_singleton,
        List.flatten_singleton, List.flatten_singleton, List.length_append, List.length_append,
        ← hc, ← hr] at hnext
      have hz := hsmall chunk hmem
      have hcut : ((payload.drop (4 + cs.length * 16)).drop
          ((front.map (packOf enc)).flatten).length).take (packOf enc chunk).length =
          packOf enc chunk := by
        rw [hbody, hsplit, List.map_append, List.flatten_append, List.drop_left, List.map_cons,
          List.flatten_cons, List.take_left]
      have hlong : (payload.drop (4 + cs.length * 16)).length =
          ((front.map (packOf enc)).flatten).length + ((packOf enc chunk).length +
            ((back.map (packOf enc)).flatten).length) := by
        rw [hbody, hsplit, List.map_append, List.flatten_append, List.map_cons, List.flatten_cons,
          List.length_append, List.length_append]
      refine ⟨hrows _ _ hat, short_of_small hz, ?_, hnext⟩
      rw [chunkAt, if_neg (by omega), if_neg (by omega), if_neg (by omega), hc, hr,
        Nat.add_sub_cancel_left, Nat.add_sub_cancel_left, hcut]
      exact unpackChunk_packChunk enc (hz.trans_lt (by decide))

/-- The strings of vectors that were empty before they were appended to. -/
def stringsFrom (bytes : Bytes) : ℕ → List ℕ → List Bytes
  | _, [] => []
  | prev, e :: ends => (bytes.drop prev).take (e - prev) :: stringsFrom bytes e ends

def Out.strings (out : Out) : List Bytes := stringsFrom out.bytes 0 out.ends

structure Encoded (values : Slice Bytes 16) (payload : Bytes) (total : ℕ) (enc : ChunkEncoder)
    (l : Laid) : Prop where
  laid : LaidAs enc (chunks chunkRows values.items) l
  small : ∀ chunk ∈ chunks chunkRows values.items, (zipOf chunk).length ≤ maxChunkRaw
  fits : 4 + (chunks chunkRows values.items).length * 16 + l.body.length < 2 ^ 63
  payload : payload = leBytes 4 (chunks chunkRows values.items).length ++
    (l.compEnds.flatMap (leBytes 8) ++ (l.rawEnds.flatMap (leBytes 8) ++ l.body))
  total : total = l.valueBytes

theorem length_endsOf (parts : List Bytes) : (endsOf parts).length = parts.length := by
  rw [endsOf, List.length_map, List.length_range]

theorem LaidAs.length_compEnds {enc : ChunkEncoder} {cs : List (List Bytes)} {l : Laid}
    (h : LaidAs enc cs l) : l.compEnds.length = cs.length := by
  rw [h.compEnds, length_endsOf, List.length_map]

theorem LaidAs.length_rawEnds {enc : ChunkEncoder} {cs : List (List Bytes)} {l : Laid}
    (h : LaidAs enc cs l) : l.rawEnds.length = cs.length := by
  rw [h.rawEnds, List.length_map, length_endsOf, List.length_map]

theorem encoded_of_ok {values : Slice Bytes 16} {table : Option (Fsst.Table × ℕ × ℕ)}
    {out : Bytes × ℕ} (h : encodePayloadWith values table = .ok out) :
    ∃ enc l, Encoded values out.1 out.2 enc l := by
  rw [encodePayloadWith] at h
  generalize ChunkEncoder.given values.items table = enc at h
  obtain ⟨l, hl, h⟩ := except_bind_ok.1 h
  obtain ⟨payload, hpayload, hout⟩ := except_bind_ok.1 h
  obtain ⟨hsmall, hlaid⟩ := foldlM_pushChunk (Checked.ofExcept_ok.1 hl)
  obtain ⟨u, hroom, hpayload⟩ := except_bind_ok.1 hpayload
  rw [hlaid.length_compEnds] at hroom hpayload
  have hfits : 4 + (chunks chunkRows values.items).length * 16 + l.body.length < 2 ^ 63 := by
    have hlt := Checked.withCapacity_ok hroom
    omega
  rw [← Except.ok.inj hout]
  exact ⟨enc, l, hlaid, hsmall, hfits, (Except.ok.inj hpayload).symm, rfl⟩

theorem length_packChunk_le (enc : ChunkEncoder) (z : Bytes) :
    (enc.packChunk z).length ≤ z.length + 1 := by
  rw [ChunkEncoder.packChunk]
  split
  case isTrue hshort =>
    rw [List.length_append, length_leBytes]
    omega
  case isFalse => rw [List.length_append, length_leBytes, Nat.add_comm]

theorem length_flatten_pack_le (enc : ChunkEncoder) {cs : List (List Bytes)}
    (hsmall : ∀ chunk ∈ cs, (zipOf chunk).length ≤ maxChunkRaw) :
    (cs.map (packOf enc)).flatten.length ≤ cs.length * (maxChunkRaw + 1) := by
  induction cs with
  | nil => exact Nat.zero_le _
  | cons chunk cs ih =>
      obtain ⟨hchunk, hrest⟩ := List.forall_mem_cons.1 hsmall
      rw [List.map_cons, List.flatten_cons, List.length_append, List.length_cons, Nat.succ_mul,
        Nat.add_comm]
      apply Nat.add_le_add (ih hrest)
      exact (length_packChunk_le enc _).trans (Nat.succ_le_succ hchunk)

/-- Strings that come to no more than the cap in any chunk are laid out. -/
theorem exists_encoded {values : Slice Bytes 16} (table : Option (Fsst.Table × ℕ × ℕ))
    (hsmall : ∀ chunk ∈ chunks chunkRows values.items, (zipOf chunk).length ≤ maxChunkRaw)
    (hcount : (chunks chunkRows values.items).length < 2 ^ 32) :
    ∃ out, encodePayloadWith values table = .ok out := by
  rw [encodePayloadWith]
  generalize ChunkEncoder.given values.items table = enc
  obtain ⟨l, hfold⟩ := exists_foldlM enc hsmall {}
  have hlaid := (foldlM_pushChunk hfold).2
  have hbody := length_flatten_pack_le enc hsmall
  rw [← hlaid.body] at hbody
  have hmax : maxChunkRaw = 2 ^ 24 := rfl
  rw [hmax] at hbody
  have hroom : (4 + l.compEnds.length * 16 + l.body.length) * 1 < 2 ^ 63 := by
    rw [hlaid.compEnds, endsOf, List.length_map, List.length_range, List.length_map]
    omega
  rw [hfold, Checked.ofExcept, ok_bind, layOut, Checked.withCapacity_of_lt hroom]
  exact ⟨_, rfl⟩

section

variable {values : Slice Bytes 16} {payload : Bytes} {total : ℕ} {enc : ChunkEncoder} {l : Laid}

theorem Encoded.field_head (h : Encoded values payload total enc l) :
    field payload 0 4 = (chunks chunkRows values.items).length % 2 ^ 32 := by
  rw [h.payload]
  exact SegmentMeta.field_here 4 _ _

theorem Encoded.drop_body (h : Encoded values payload total enc l) :
    payload.drop (4 + (chunks chunkRows values.items).length * 16) =
      ((chunks chunkRows values.items).map (packOf enc)).flatten := by
  have hfront : payload = (leBytes 4 (chunks chunkRows values.items).length ++
      (l.compEnds.flatMap (leBytes 8) ++ l.rawEnds.flatMap (leBytes 8))) ++ l.body := by
    rw [h.payload]
    simp only [List.append_assoc]
  rw [hfront, ← h.laid.body]
  apply List.drop_left'
  rw [List.length_append, List.length_append, length_leBytes, length_flatMap_leBytes,
    length_flatMap_leBytes, h.laid.length_compEnds, h.laid.length_rawEnds]
  omega

theorem Encoded.length_payload (h : Encoded values payload total enc l) :
    payload.length = 4 + (chunks chunkRows values.items).length * 16 + l.body.length := by
  rw [h.payload, List.length_append, List.length_append, List.length_append, length_leBytes,
    length_flatMap_leBytes, length_flatMap_leBytes, h.laid.length_compEnds, h.laid.length_rawEnds]
  omega

theorem getElem?_endsOf {parts : List Bytes} {j : ℕ} (hj : j < parts.length) :
    (endsOf parts)[j]? = some ((parts.take (j + 1)).flatten).length := by
  rw [endsOf, List.getElem?_map, List.getElem?_range hj]
  rfl

theorem length_flatten_take_le (parts : List Bytes) (j : ℕ) :
    ((parts.take j).flatten).length ≤ parts.flatten.length := by
  have hsplit := congrArg List.flatten (List.take_append_drop j parts)
  rw [List.flatten_append] at hsplit
  rw [← hsplit, List.length_append]
  exact Nat.le_add_right _ _

theorem Encoded.compEnd (h : Encoded values payload total enc l) {j : ℕ}
    (hj : j < (chunks chunkRows values.items).length) :
    compEnd payload j =
      ((((chunks chunkRows values.items).take (j + 1)).map (packOf enc)).flatten).length := by
  have hx := @getElem?_endsOf ((chunks chunkRows values.items).map (packOf enc)) j
    (by rw [List.length_map]; exact hj)
  rw [← h.laid.compEnds] at hx
  have hfield := field_flatMap hx h.payload
  rw [length_leBytes] at hfield
  rw [FullZip.compEnd, hfield, List.map_take]
  apply Nat.mod_eq_of_lt
  have hle := length_flatten_take_le ((chunks chunkRows values.items).map (packOf enc)) (j + 1)
  rw [← h.laid.body] at hle
  have hfits := h.fits
  omega

theorem length_flatten_zip_le {cs : List (List Bytes)}
    (hsmall : ∀ chunk ∈ cs, (zipOf chunk).length ≤ maxChunkRaw) :
    (cs.map zipOf).flatten.length ≤ cs.length * maxChunkRaw := by
  induction cs with
  | nil => exact Nat.zero_le _
  | cons chunk cs ih =>
      obtain ⟨hchunk, hrest⟩ := List.forall_mem_cons.1 hsmall
      rw [List.map_cons, List.flatten_cons, List.length_append, List.length_cons, Nat.succ_mul,
        Nat.add_comm]
      exact Nat.add_le_add (ih hrest) hchunk

theorem Encoded.rawEnd (h : Encoded values payload total enc l)
    (hcount : (chunks chunkRows values.items).length < 2 ^ 32) {j : ℕ}
    (hj : j < (chunks chunkRows values.items).length) :
    rawEnd payload (chunks chunkRows values.items).length j =
      ((((chunks chunkRows values.items).take (j + 1)).map zipOf).flatten).length := by
  have hx := @getElem?_endsOf ((chunks chunkRows values.items).map zipOf) j
    (by rw [List.length_map]; exact hj)
  have hx' : l.rawEnds[j]? = some (((((chunks chunkRows values.items).map zipOf).take
      (j + 1)).flatten).length % 2 ^ 64) := by
    rw [h.laid.rawEnds, List.getElem?_map, hx]
    rfl
  have hpayload : payload = (leBytes 4 (chunks chunkRows values.items).length ++
      l.compEnds.flatMap (leBytes 8)) ++ (l.rawEnds.flatMap (leBytes 8) ++ l.body) := by
    rw [h.payload, List.append_assoc]
  have hfield := field_flatMap hx' hpayload
  rw [List.length_append, length_leBytes, length_flatMap_leBytes, h.laid.length_compEnds] at hfield
  have hat : 4 + ((chunks chunkRows values.items).length + j) * 8 =
      4 + 8 * (chunks chunkRows values.items).length + j * 8 := by ring
  have hle := length_flatten_take_le ((chunks chunkRows values.items).map zipOf) (j + 1)
  have htotal := length_flatten_zip_le h.small
  have hmax : maxChunkRaw = 2 ^ 24 := rfl
  rw [hmax] at htotal
  rw [FullZip.rawEnd, hat, hfield, List.map_take]
  have hlt : ((((chunks chunkRows values.items).map zipOf).take (j + 1)).flatten).length < 2 ^ 64 := by
    omega
  rw [Nat.mod_eq_of_lt hlt]
  exact Nat.mod_eq_of_lt (hlt.trans_eq (by norm_num))

theorem length_chunk {α : Type} {vs : List α} {j : ℕ} {chunk : List α}
    (h : (chunks chunkRows vs)[j]? = some chunk) :
    chunk.length = min (vs.length - j * chunkRows) chunkRows := by
  rw [getElem?_chunks chunkRows_pos] at h
  split_ifs at h
  rw [← Option.some.inj h, List.length_take, List.length_drop, Nat.min_comm]

theorem length_chunks_eq {α : Type} (vs : List α) :
    (chunks chunkRows vs).length = divCeil vs.length chunkRows := by
  rw [length_chunks chunkRows_pos, divCeil]
  rfl

theorem Encoded.holds (h : Encoded values payload total enc l)
    (hcount : (chunks chunkRows values.items).length < 2 ^ 32) :
    Holds payload values.items.length (chunks chunkRows values.items) where
  count := length_chunks_eq _
  head := by rw [h.field_head, Nat.mod_eq_of_lt hcount]
  long := by
    rw [h.length_payload]
    exact Nat.le_add_right _ _
  chunks := by
    rw [h.drop_body]
    exact chunksFrom_laid enc h.drop_body (fun j hj => h.compEnd hj) (fun j hj => h.rawEnd hcount hj)
      (fun j chunk hchunk => length_chunk hchunk) h.small [] _ (List.nil_append _).symm

theorem length_flatten_le_zip (chunk : List Bytes) : chunk.flatten.length ≤ (zipOf chunk).length := by
  induction chunk with
  | nil => exact Nat.zero_le _
  | cons v chunk ih =>
      rw [zipOf] at ih ⊢
      rw [List.flatten_cons, List.flatMap_cons, List.length_append, List.length_append,
        length_zipped]
      omega

theorem Encoded.total_eq (h : Encoded values payload total enc l)
    (hcount : (chunks chunkRows values.items).length < 2 ^ 32) :
    values.items.flatten.length = total := by
  have hflat : (chunks chunkRows values.items).flatten = values.items :=
    flatten_chunks chunkRows_pos _
  have hle : ∀ cs : List (List Bytes), cs.flatten.flatten.length ≤ (cs.map zipOf).flatten.length := by
    intro cs
    induction cs with
    | nil => exact Nat.zero_le _
    | cons chunk cs ih =>
        rw [List.flatten_cons, List.flatten_append, List.map_cons, List.flatten_cons,
          List.length_append, List.length_append]
        exact Nat.add_le_add (length_flatten_le_zip chunk) ih
  have hbytes := hle (chunks chunkRows values.items)
  have htotal := length_flatten_zip_le h.small
  have hmax : maxChunkRaw = 2 ^ 24 := rfl
  rw [hmax] at htotal
  rw [h.total, h.laid.valueBytes]
  rw [hflat] at hbytes ⊢
  exact (Nat.mod_eq_of_lt (by omega)).symm

/-- The strings come back as long as the count of the chunks fits its field. -/
theorem Encoded.decodes_iff (h : Encoded values payload total enc l) :
    (∀ out : Out, (decodePayload payload values.items.length total).exec out =
        (.ok (), out.pushAll values.items)) ↔
      divCeil values.items.length chunkRows < 2 ^ 32 := by
  rw [← length_chunks_eq]
  constructor
  · intro hback
    obtain ⟨vss, hholds, -⟩ := decodePayload_ok.1 (hback {})
    have hhead := hholds.head
    rw [hholds.count, ← length_chunks_eq, h.field_head] at hhead
    rw [← hhead]
    exact Nat.mod_lt _ (Nat.two_pow_pos 32)
  · intro hcount out
    have hflat : (chunks chunkRows values.items).flatten = values.items :=
      flatten_chunks chunkRows_pos _
    apply decodePayload_ok.2
    exact ⟨_, h.holds hcount, by rw [hflat, h.total_eq hcount], by rw [hflat]⟩

end

end FullZip

end Zu.Segment
