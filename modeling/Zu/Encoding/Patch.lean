import Zu.Encoding.Delta

/-!
# Patched bit packing

Each chunk is packed at the width that costs least in all; the values wider than
that are exceptions, kept apart at the widest width behind a bitmap of where they
are, while their packed slots hold zero.
-/

namespace Zu.Encoding

open Lib

namespace Patch

/-- The width histogram of a chunk. -/
def hist (chunk : List Word) (w : ℕ) : ℕ := chunk.countP fun v => bitsNeeded v = w

def widest (chunk : List Word) : ℕ := chunk.foldl (fun w v => max w (bitsNeeded v)) 0

/-- Prices every width below the widest, from the top down: what it costs so far at
best, the width that does, and the exceptions so far. -/
def priceWidths (hist : ℕ → ℕ) (maxWidth take : ℕ) : ℕ → ℕ × ℕ × ℕ → ℕ × ℕ × ℕ
  | 0, s => s
  | w + 1, (best, width, excCount) =>
      let excCount := excCount + hist (w + 1)
      let cost := packedBytes w take + packedBytes 1 take + packedBytes maxWidth excCount
      priceWidths hist maxWidth take w
        (if cost < best then (cost, w, excCount) else (best, width, excCount))

def pickWidth (chunk : List Word) : ℕ :=
  (priceWidths (hist chunk) (widest chunk) chunk.length (widest chunk)
    (packedBytes (widest chunk) chunk.length + packedBytes 1 chunk.length, widest chunk, 0)).2.1

/-- One chunk: the slots, the bitmap, the exceptions. -/
def encodeChunk (chunk : List Word) : Bytes :=
  let width := pickWidth chunk
  let maxWidth := widest chunk
  leBytes 1 width ++ (leBytes 1 maxWidth ++
    (pack (chunk.map fun v => if width < bitsNeeded v then 0 else v) width ++
    (pack (chunk.map fun v => if width < bitsNeeded v then 1 else 0) 1 ++
      pack (chunk.filter fun v => width < bitsNeeded v) maxWidth)))

def encode (values : List Word) : Bytes :=
  leBytes 4 values.length ++ (chunks chunkLen values).flatMap encodeChunk

def countOnes (b : UInt8) : ℕ := (List.range 8).countP fun i => b.toNat.testBit i

def setBits (words : List Word) : List ℕ :=
  (List.range (64 * words.length)).filter fun i => bitAt 1 0 words i

/-- Puts the exceptions where the set bits are. -/
def patch (take : ℕ) : List ℕ → List Word → List Word → List Word
  | [], _, low => low
  | i :: bits, excs, low =>
      patch take bits excs.tail (if i < take then low.set i (excs.headD 0) else low)

/-- Reads the next chunk when `remaining` values are left: the patched values and
how many of them count. -/
def readChunk (remaining : ℕ) : Reader ZuError (List Word × ℕ) := do
  let header ← takeBytes 2 (.corrupt "patch" "truncated chunk header")
  let width := fromLe (header.take 1)
  let excWidth := fromLe (header.drop 1)
  rejectIf (64 < width ∨ 64 < excWidth) (.corrupt "patch" "width > 64")
  let take := min remaining chunkLen
  let packed ← takeBytes (packedBytes width take) (.corrupt "patch" "truncated chunk body")
  let bitmap ← takeBytes (packedBytes 1 take) (.corrupt "patch" "truncated bitmap")
  let excCount := (bitmap.map countOnes).sum
  let packedExcs ← takeBytes (packedBytes excWidth excCount)
    (.corrupt "patch" "truncated exceptions")
  return (patch take (setBits (wordsOf bitmap)) (unpack packedExcs excWidth)
    (unpack packed width), take)

variable {σ : Type}

/-- Hands each patched chunk to `sink`; a chunk is never empty, so `remaining`
bounds the chunks there are. -/
def chunkLoop (sink : σ → List Word → ℕ → σ) : ℕ → ℕ → Bytes → σ → Except ZuError σ
  | 0, _, _, s => .ok s
  | fuel + 1, remaining, bytes, s =>
      if remaining = 0 then .ok s
      else do
        let ((values, take), bytes) ← readChunk remaining bytes
        chunkLoop sink fuel (remaining - take) bytes (sink s values take)

def decodeChunks (bytes : Bytes) (maxValues : ℕ) (sink : σ → List Word → ℕ → σ) (s : σ) :
    Except ZuError σ :=
  if bytes.length < 4 then .error (.corrupt "patch" "truncated count")
  else
    let count := fromLe (bytes.take 4)
    if maxValues < count then
      .error (.corrupt "patch" s!"claims {count} values, caller allows {maxValues}")
    else chunkLoop sink count count (bytes.drop 4) s

end Patch

namespace DeltaPatch

def encode (values : List Word) : Bytes :=
  let base := values.headD 0
  leBytes 8 base.toNat ++ Patch.encode (deltas base values)

/-- `delta_patch::decode`: the values it appends to `out`. -/
def decode (bytes : Bytes) (maxValues : ℕ) : Except ZuError (List Word) := do
  if bytes.length < 8 then throw (.corrupt "delta_patch" "truncated base")
  let base := BitVec.ofNat 64 (fromLe (bytes.take 8))
  let (_, out) ← Patch.decodeChunks (bytes.drop 8) maxValues
    (fun (prev, out) ds take =>
      let read := undeltas prev (ds.take take)
      (read.getLastD prev, out ++ read))
    (base, [])
  return out

end DeltaPatch

namespace Patch

/-! ### Widths -/

theorem le_foldl_max (chunk : List Word) (w : ℕ) :
    w ≤ chunk.foldl (fun w v => max w (bitsNeeded v)) w ∧
      ∀ v ∈ chunk, bitsNeeded v ≤ chunk.foldl (fun w v => max w (bitsNeeded v)) w := by
  induction chunk generalizing w with
  | nil => exact ⟨le_rfl, fun v hv => absurd hv List.not_mem_nil⟩
  | cons x chunk ih =>
      obtain ⟨hw, hrest⟩ := ih (max w (bitsNeeded x))
      refine ⟨(le_max_left _ _).trans hw, fun v hv => ?_⟩
      cases List.mem_cons.1 hv with
      | inl hv =>
          subst hv
          exact (le_max_right _ _).trans hw
      | inr hv => exact hrest v hv

theorem bitsNeeded_le_widest {chunk : List Word} {v : Word} (hv : v ∈ chunk) :
    bitsNeeded v ≤ widest chunk := (le_foldl_max chunk 0).2 v hv

theorem foldl_max_le {n : ℕ} (chunk : List Word) {w : ℕ} (hw : w ≤ n)
    (h : ∀ v ∈ chunk, bitsNeeded v ≤ n) :
    chunk.foldl (fun w v => max w (bitsNeeded v)) w ≤ n := by
  induction chunk generalizing w with
  | nil => exact hw
  | cons x chunk ih =>
      exact ih (max_le hw (h x List.mem_cons_self)) fun v hv => h v (List.mem_cons_of_mem _ hv)

theorem widest_le (chunk : List Word) : widest chunk ≤ 64 :=
  foldl_max_le chunk (Nat.zero_le 64) fun v _ => bitsNeeded_le v

theorem priceWidths_le {hist : ℕ → ℕ} {maxWidth take w : ℕ} (hw : w ≤ maxWidth)
    {s : ℕ × ℕ × ℕ} (hs : s.2.1 ≤ maxWidth) : (priceWidths hist maxWidth take w s).2.1 ≤ maxWidth := by
  induction w generalizing s with
  | zero => exact hs
  | succ w ih =>
      obtain ⟨best, width, excCount⟩ := s
      rw [priceWidths]
      apply ih (Nat.le_of_succ_le hw)
      split
      · exact Nat.le_of_succ_le hw
      · exact hs

theorem pickWidth_le (chunk : List Word) : pickWidth chunk ≤ 64 := by
  have hle : pickWidth chunk ≤ widest chunk := by
    apply priceWidths_le le_rfl
    exact le_rfl
  exact hle.trans (widest_le chunk)

/-! ### The bitmap -/

theorem countP_range_add (m n : ℕ) (p : ℕ → Bool) :
    (List.range (m + n)).countP p =
      (List.range m).countP p + (List.range n).countP fun i => p (m + i) := by
  rw [List.range_add, List.countP_append, List.countP_map]
  rfl

theorem sum_countOnes_leBytes (k n : ℕ) :
    ((leBytes k n).map countOnes).sum = (List.range (8 * k)).countP fun i => n.testBit i := by
  induction k generalizing n with
  | zero => rfl
  | succ k ih =>
      have hlow : countOnes (UInt8.ofNat n) =
          (List.range 8).countP fun i => n.testBit i := by
        rw [countOnes]
        apply List.countP_congr
        intro i hi
        have hlt : i < 8 := List.mem_range.1 hi
        have hval : (UInt8.ofNat n).toNat = n % 2 ^ 8 := UInt8.toNat_ofNat'
        rw [hval, Nat.testBit_mod_two_pow]
        simp [hlt]
      have hhigh : (List.range (8 * k)).countP (fun i => n.testBit (8 + i)) =
          (List.range (8 * k)).countP fun i => (n / 256).testBit i := by
        apply List.countP_congr
        intro i _
        rw [Nat.add_comm, ← Nat.testBit_div_two_pow]
      have hsplit : 8 * (k + 1) = 8 + 8 * k := by ring
      rw [leBytes, List.map_cons, List.sum_cons, ih, hsplit, countP_range_add, hhigh, ← hlow]

theorem sum_countOnes_wordBytes (words : List Word) :
    ((wordBytes words).map countOnes).sum = (setBits words).length := by
  rw [setBits, ← List.countP_eq_length_filter]
  induction words with
  | nil => rfl
  | cons w words ih =>
      have hlow : (List.range 64).countP (fun i => w.toNat.testBit i) =
          (List.range 64).countP fun i => bitAt 1 0 (w :: words) i := by
        apply List.countP_congr
        intro i hi
        rw [bitAt_cons, if_pos (List.mem_range.1 hi)]
        rfl
      have hhigh : (List.range (64 * words.length)).countP (fun i => bitAt 1 0 words i) =
          (List.range (64 * words.length)).countP fun i => bitAt 1 0 (w :: words) (64 + i) := by
        apply List.countP_congr
        intro i _
        rw [bitAt_cons, if_neg (by omega), Nat.add_sub_cancel_left]
      have hsplit : 64 * (words.length + 1) = 64 + 64 * words.length := by ring
      rw [wordBytes, List.flatMap_cons, List.map_append, List.sum_append, sum_countOnes_leBytes,
        List.length_cons, hsplit, countP_range_add, ← hhigh, ← ih, ← hlow]
      rfl

/-- Where a chunk has exceptions, counting from `k`. -/
def wideFrom (wide : Word → Bool) : ℕ → List Word → List ℕ
  | _, [] => []
  | k, v :: values => if wide v then k :: wideFrom wide (k + 1) values else wideFrom wide (k + 1) values

theorem length_wideFrom (wide : Word → Bool) (k : ℕ) (values : List Word) :
    (wideFrom wide k values).length = (values.filter wide).length := by
  induction values generalizing k with
  | nil => rfl
  | cons v values ih =>
      rw [wideFrom, List.filter_cons]
      split
      · rw [List.length_cons, List.length_cons, ih]
      · exact ih (k + 1)

theorem filter_range'_eq_wideFrom (wide : Word → Bool) (values : List Word) (k n : ℕ)
    (hn : values.length ≤ n) {p : ℕ → Bool}
    (hp : ∀ i, p (k + i) = (values[i]?.elim false wide)) :
    (List.range' k n).filter p = wideFrom wide k values := by
  induction values generalizing k n with
  | nil =>
      rw [wideFrom, List.filter_eq_nil_iff]
      intro i hi
      rw [List.mem_range'_1] at hi
      have h := hp (i - k)
      rw [Nat.add_sub_cancel' hi.1] at h
      rw [h]
      exact Bool.false_ne_true
  | cons v values ih =>
      cases n with
      | zero => exact absurd hn (Nat.not_succ_le_zero _)
      | succ n =>
          have hrest : (List.range' (k + 1) n).filter p = wideFrom wide (k + 1) values := by
            apply ih (k + 1) n (Nat.le_of_succ_le_succ hn)
            intro i
            have h := hp (i + 1)
            rw [← Nat.add_assoc, Nat.add_right_comm, List.getElem?_cons_succ] at h
            exact h
          have hhead : p k = wide v := hp 0
          rw [List.range'_succ, List.filter_cons, hhead, wideFrom, hrest]

section

variable {wide : Word → Bool} {chunk : List Word}

/-- The bitmap that is packed has its set bits where the exceptions are. -/
theorem setBits_flags (chunk : List Word) :
    setBits (packWords 1 0 0 (chunk.map fun v => if wide v then 1 else 0)) =
      wideFrom wide 0 chunk := by
  have hlt : ∀ v ∈ chunk.map (fun v => if wide v then (1 : Word) else 0), v.toNat < 2 ^ 1 := by
    intro v hv
    obtain ⟨x, -, rfl⟩ := List.mem_map.1 hv
    split <;> decide
  rw [setBits, List.range_eq_range']
  apply filter_range'_eq_wideFrom
  · rw [length_packWords (by norm_num) 0 (by norm_num), List.length_map]
    omega
  · intro i
    rw [Nat.zero_add, bitAt_packWords_zero (by norm_num) (by norm_num) hlt, sourceBit, Nat.div_one,
      Nat.mod_one, List.getD_eq_getElem?_getD, List.getElem?_map]
    cases chunk[i]? with
    | none => exact BitVec.getLsbD_zero
    | some v =>
        change (if wide v then (1 : Word) else 0).getLsbD 0 = wide v
        cases wide v <;> rfl

/-- The exceptions go back where they were. The induction is on the chunk, over
what is already in place. -/
theorem patch_wideFrom (done chunk excs rest : List Word) {take : ℕ}
    (htake : done.length + chunk.length ≤ take) :
    patch take (wideFrom wide done.length chunk) (chunk.filter wide ++ excs)
        (done ++ (chunk.map fun v => if wide v then 0 else v) ++ rest) =
      done ++ chunk ++ rest := by
  induction chunk generalizing done with
  | nil => rfl
  | cons v chunk ih =>
      have hnext := ih (done ++ [v]) (by
        rw [List.length_cons] at htake
        rw [List.length_append, List.length_singleton]
        omega)
      rw [List.length_append, List.length_singleton] at hnext
      rw [wideFrom, List.filter_cons, List.map_cons]
      by_cases hv : wide v
      · rw [if_pos hv, if_pos hv, if_pos hv, patch, if_pos (by
          rw [List.length_cons] at htake
          omega)]
        have hset : (done ++ (0 :: chunk.map fun v => if wide v then (0 : Word) else v) ++ rest).set
            done.length v = done ++ [v] ++ (chunk.map fun v => if wide v then 0 else v) ++ rest := by
          rw [List.append_assoc, List.set_append_right _ _ le_rfl, Nat.sub_self, List.cons_append,
            List.set_cons_zero]
          simp
        simp only [List.cons_append, List.headD_cons, List.tail_cons] at hset ⊢
        rw [hset, hnext]
        simp
      · rw [if_neg hv, if_neg hv, if_neg hv]
        simp only [List.append_assoc, List.cons_append, List.nil_append] at hnext ⊢
        exact hnext

end

/-! ### Reading back what was written -/

section

variable {chunk : List Word} (hlen : chunk.length ≤ chunkLen)

/-- Whether a value is an exception of its chunk. -/
def isWide (chunk : List Word) (v : Word) : Bool := pickWidth chunk < bitsNeeded v

def chunkHeader (chunk : List Word) : Bytes :=
  leBytes 1 (pickWidth chunk) ++ leBytes 1 (widest chunk)

def slots (chunk : List Word) : Bytes :=
  pack (chunk.map fun v => if isWide chunk v then 0 else v) (pickWidth chunk)

def bitmap (chunk : List Word) : Bytes :=
  pack (chunk.map fun v => if isWide chunk v then 1 else 0) 1

def exceptions (chunk : List Word) : Bytes :=
  pack (chunk.filter (isWide chunk)) (widest chunk)

theorem encodeChunk_eq (chunk : List Word) : encodeChunk chunk =
    chunkHeader chunk ++ (slots chunk ++ (bitmap chunk ++ exceptions chunk)) := by
  have hwide : isWide chunk = fun v => decide (pickWidth chunk < bitsNeeded v) := rfl
  rw [encodeChunk, chunkHeader, slots, bitmap, exceptions, List.append_assoc, hwide]
  simp only [decide_eq_true_eq]

theorem length_chunkHeader (chunk : List Word) : (chunkHeader chunk).length = 2 := by
  rw [chunkHeader, List.length_append, length_leBytes, length_leBytes]

theorem chunkHeader_width (chunk : List Word) :
    fromLe ((chunkHeader chunk).take 1) = pickWidth chunk := by
  have hle := pickWidth_le chunk
  rw [chunkHeader, List.take_left' (length_leBytes 1 _), fromLe_leBytes_of_lt (by omega)]

theorem chunkHeader_excWidth (chunk : List Word) :
    fromLe ((chunkHeader chunk).drop 1) = widest chunk := by
  have hle := widest_le chunk
  rw [chunkHeader, List.drop_left' (length_leBytes 1 _), fromLe_leBytes_of_lt (by omega)]

theorem length_slots (chunk : List Word) :
    (slots chunk).length = packedBytes (pickWidth chunk) chunk.length := by
  rw [slots, length_pack (pickWidth_le chunk), List.length_map]

theorem length_bitmap (chunk : List Word) :
    (bitmap chunk).length = packedBytes 1 chunk.length := by
  rw [bitmap, length_pack (by norm_num), List.length_map]

theorem bitmap_eq (chunk : List Word) : bitmap chunk =
    wordBytes (packWords 1 0 0 (chunk.map fun v => if isWide chunk v then 1 else 0)) := by
  rw [bitmap, pack, if_neg (by norm_num), if_neg (fun h => absurd h.1 (lt_irrefl 1))]

theorem setBits_bitmap (chunk : List Word) :
    setBits (wordsOf (bitmap chunk)) = wideFrom (isWide chunk) 0 chunk := by
  rw [bitmap_eq, wordsOf_wordBytes, setBits_flags]

theorem length_exceptions (chunk : List Word) : (exceptions chunk).length =
    packedBytes (widest chunk) ((bitmap chunk).map countOnes).sum := by
  rw [exceptions, length_pack (widest_le chunk), bitmap_eq, sum_countOnes_wordBytes, setBits_flags,
    length_wideFrom]

include hlen

theorem take_patch_chunk : (patch chunk.length (setBits (wordsOf (bitmap chunk)))
    (unpack (exceptions chunk) (widest chunk)) (unpack (slots chunk) (pickWidth chunk))).take
      chunk.length = chunk := by
  have hlow : (unpack (slots chunk) (pickWidth chunk)).take
      (chunk.map fun v => if isWide chunk v then (0 : Word) else v).length =
        chunk.map fun v => if isWide chunk v then 0 else v := by
    apply unpack_pack _ _ (pickWidth_le chunk)
    · rwa [List.length_map]
    · intro v hv
      obtain ⟨x, -, rfl⟩ := List.mem_map.1 hv
      split
      · exact Nat.two_pow_pos _
      · rename_i hx
        rw [isWide, decide_eq_true_eq] at hx
        exact bitsNeeded_le_iff.1 (not_lt.1 hx)
  have hexc : (unpack (exceptions chunk) (widest chunk)).take
      (chunk.filter (isWide chunk)).length = chunk.filter (isWide chunk) := by
    apply unpack_pack _ _ (widest_le chunk)
    · exact (List.length_filter_le _ _).trans hlen
    · intro v hv
      exact bitsNeeded_le_iff.1 (bitsNeeded_le_widest (List.mem_of_mem_filter hv))
  have hpatch := @patch_wideFrom (isWide chunk) [] chunk
    ((unpack (exceptions chunk) (widest chunk)).drop (chunk.filter (isWide chunk)).length)
    ((unpack (slots chunk) (pickWidth chunk)).drop
      (chunk.map fun v => if isWide chunk v then (0 : Word) else v).length)
    chunk.length (by rw [List.length_nil, Nat.zero_add])
  rw [List.length_nil, List.nil_append, List.nil_append] at hpatch
  rw [← List.take_append_drop (chunk.map fun v => if isWide chunk v then (0 : Word) else v).length
    (unpack (slots chunk) (pickWidth chunk)), hlow,
    ← List.take_append_drop (chunk.filter (isWide chunk)).length
    (unpack (exceptions chunk) (widest chunk)), hexc, setBits_bitmap, hpatch, List.take_left' rfl]

end

theorem decodes_readChunk (values : List Word) :
    ∃ patched, Decodes (readChunk values.length) (encodeChunk (values.take chunkLen))
        (patched, (values.take chunkLen).length) ∧
      patched.take (values.take chunkLen).length = values.take chunkLen := by
  have hchunk : (values.take chunkLen).length ≤ chunkLen := List.length_take_le _ _
  generalize hc : values.take chunkLen = chunk at hchunk ⊢
  have hmin : min values.length chunkLen = chunk.length := by
    rw [← hc, List.length_take, Nat.min_comm]
  have hwidths : ¬ (64 < fromLe ((chunkHeader chunk).take 1) ∨
      64 < fromLe ((chunkHeader chunk).drop 1)) := by
    rw [chunkHeader_width, chunkHeader_excWidth]
    exact not_or.2 ⟨not_lt.2 (pickWidth_le chunk), not_lt.2 (widest_le chunk)⟩
  refine ⟨_, ?_, take_patch_chunk hchunk⟩
  rw [readChunk, encodeChunk_eq, hmin]
  apply (decodes_takeBytes (length_chunkHeader chunk) _).bind
  rw [← List.nil_append (slots chunk ++ _)]
  apply (decodes_rejectIf hwidths _).bind
  rw [chunkHeader_width, chunkHeader_excWidth]
  apply (decodes_takeBytes (length_slots chunk) _).bind
  apply (decodes_takeBytes (length_bitmap chunk) _).bind
  exact (decodes_takeBytes (length_exceptions chunk) _).bind_pure rfl

def body (values : List Word) : Bytes := (chunks chunkLen values).flatMap encodeChunk

theorem encode_eq (values : List Word) : encode values = leBytes 4 values.length ++ body values :=
  rfl

theorem body_of_ne_nil {values : List Word} (h : values ≠ []) :
    body values = encodeChunk (values.take chunkLen) ++ body (values.drop chunkLen) := by
  rw [body, chunks_of_ne_nil (by decide) h, List.flatMap_cons, body]

section

variable {σ : Type} (sink : σ → List Word → ℕ → σ) (onChunk : σ → List Word → σ)
  (hsink : ∀ s ds take, sink s ds take = onChunk s (ds.take take))

include hsink

theorem chunkLoop_body (values : List Word) (rest : Bytes) {fuel : ℕ}
    (hfuel : values.length ≤ fuel) (s : σ) :
    chunkLoop sink fuel values.length (body values ++ rest) s =
      .ok ((chunks chunkLen values).foldl onChunk s) := by
  induction values using chunks_induction (n := chunkLen) (by decide) generalizing fuel s with
  | nil => cases fuel <;> rfl
  | step values hne ih =>
      have hpos := List.length_pos_of_ne_nil hne
      cases fuel with
      | zero => exact absurd hpos (not_lt.2 hfuel)
      | succ fuel =>
          have hdrop : (values.drop chunkLen).length ≤ fuel := by
            rw [List.length_drop, chunkLen]
            omega
          have hleft : values.length - (values.take chunkLen).length =
              (values.drop chunkLen).length := by
            rw [List.length_take, List.length_drop]
            omega
          obtain ⟨patched, hread, htake⟩ := decodes_readChunk values
          rw [chunkLoop, if_neg hpos.ne', body_of_ne_nil hne, List.append_assoc, hread, ok_bind]
          change chunkLoop sink fuel _ _ _ = _
          rw [hleft, ih hdrop, hsink, htake, chunks_of_ne_nil (by decide) hne]
          rfl

theorem decodeChunks_encode {values : List Word} (h : values.length < 2 ^ 32) (rest : Bytes)
    {maxValues : ℕ} (hmax : values.length ≤ maxValues) (s : σ) :
    decodeChunks (encode values ++ rest) maxValues sink s =
      .ok ((chunks chunkLen values).foldl onChunk s) := by
  have hlen : ¬ (encode values ++ rest).length < 4 := by
    rw [encode_eq, List.length_append, List.length_append, length_leBytes]
    omega
  have hcount : fromLe ((encode values ++ rest).take 4) = values.length := by
    rw [encode_eq, List.append_assoc, List.take_left' (length_leBytes 4 _),
      fromLe_leBytes_of_lt (by omega)]
  rw [decodeChunks, if_neg hlen]
  simp only [hcount]
  rw [if_neg (not_lt.2 hmax), encode_eq, List.append_assoc, List.drop_left' (length_leBytes 4 _)]
  exact chunkLoop_body sink onChunk hsink values rest le_rfl s

omit hsink in
theorem decodeChunks_encode_over {values : List Word} (h : values.length < 2 ^ 32) (rest : Bytes)
    {maxValues : ℕ} (hmax : maxValues < values.length) (s : σ) :
    ∃ e, decodeChunks (encode values ++ rest) maxValues sink s = .error e := by
  have hlen : ¬ (encode values ++ rest).length < 4 := by
    rw [encode_eq, List.length_append, List.length_append, length_leBytes]
    omega
  have hcount : fromLe ((encode values ++ rest).take 4) = values.length := by
    rw [encode_eq, List.append_assoc, List.take_left' (length_leBytes 4 _),
      fromLe_leBytes_of_lt (by omega)]
  rw [decodeChunks, if_neg hlen]
  simp only [hcount]
  rw [if_pos hmax]
  exact ⟨_, rfl⟩

end

end Patch

namespace DeltaPatch

section

variable {values : List Word} (h : values.length < 2 ^ 32) (rest : Bytes) {maxValues : ℕ}

theorem encode_base (values : List Word) (rest : Bytes) :
    ((encode values ++ rest).take 8 = leBytes 8 (values.headD 0).toNat) ∧
      (encode values ++ rest).drop 8 = Patch.encode (deltas (values.headD 0) values) ++ rest := by
  rw [encode, List.append_assoc, List.take_left' (length_leBytes 8 _),
    List.drop_left' (length_leBytes 8 _)]
  exact ⟨rfl, rfl⟩

theorem not_short (values : List Word) (rest : Bytes) : ¬ (encode values ++ rest).length < 8 := by
  rw [encode, List.length_append, List.length_append, length_leBytes]
  omega

include h

theorem decode_encode (hmax : values.length ≤ maxValues) :
    decode (encode values ++ rest) maxValues = .ok values := by
  obtain ⟨hbase, hbody⟩ := encode_base values rest
  have hfold := foldl_undeltas (chunks chunkLen (deltas (values.headD 0) values))
    (values.headD 0) []
  rw [flatten_chunks (by decide), undeltas_deltas, List.nil_append] at hfold
  rw [decode, if_neg (not_short values rest)]
  simp only [hbase, hbody, word_fromLe]
  rw [Patch.decodeChunks_encode _ (fun (s : Word × List Word) ds =>
      ((undeltas s.1 ds).getLastD s.1, s.2 ++ undeltas s.1 ds)) (fun _ _ _ => rfl)
    (by rwa [length_deltas]) rest (by rwa [length_deltas]), hfold]
  rfl

theorem decode_encode_over (hmax : maxValues < values.length) :
    ∃ e, decode (encode values ++ rest) maxValues = .error e := by
  obtain ⟨hbase, hbody⟩ := encode_base values rest
  rw [decode, if_neg (not_short values rest)]
  simp only [hbase, hbody, word_fromLe]
  obtain ⟨e, he⟩ := @Patch.decodeChunks_encode_over _
    (fun (s : Word × List Word) ds take =>
      ((undeltas s.1 (ds.take take)).getLastD s.1, s.2 ++ undeltas s.1 (ds.take take)))
    (deltas (values.headD 0) values) (by rwa [length_deltas]) rest maxValues
    (by rwa [length_deltas]) (values.headD 0, [])
  refine ⟨e, ?_⟩
  rw [he]
  rfl

end

end DeltaPatch

end Zu.Encoding
