import Zu.Encoding.Bitpack
import Zu.Lib.Codec
import Zu.Lib.Fallible
import Zu.Common.Error

/-!
# Frame of reference

A count, and per 1024 values a minimum, a width, and what is left of the values
over the minimum, packed. Decoders pull the chunks through a cursor, which refuses
a count above the ceiling of its caller before anything else.
-/

namespace Zu.Encoding

open Lib

/-- `iter().min().unwrap_or(0)`. -/
def least : List Word → Word
  | [] => 0
  | v :: values => values.foldl (fun m x => if x < m then x else m) v

/-- `iter().max().unwrap_or(0)`. -/
def greatest : List Word → Word
  | [] => 0
  | v :: values => values.foldl (fun m x => if m < x then x else m) v

namespace ForBitpack

def encodeChunk (chunk : List Word) : Bytes :=
  let min := least chunk
  let width := bitsNeeded (greatest chunk - min)
  leBytes 8 min.toNat ++ (leBytes 1 width ++ pack (chunk.map (· - min)) width)

def encode (values : List Word) : Bytes :=
  leBytes 4 values.length ++ (chunks chunkLen values).flatMap encodeChunk

/-- What `ChunkCursor::next` reads when `remaining` values are left: a minimum, the
chunk without it, and how many of it count. -/
def readChunk (remaining : ℕ) : Reader ZuError (Word × List Word × ℕ) := do
  let header ← takeBytes 9 (.corrupt "for_bitpack" "truncated chunk header")
  let width := fromLe (header.drop 8)
  rejectIf (64 < width) (.corrupt "for_bitpack" "width > 64")
  let take := min remaining chunkLen
  let packed ← takeBytes (packedBytes width take) (.corrupt "for_bitpack" "truncated chunk body")
  return (BitVec.ofNat 64 (fromLe (header.take 8)), unpack packed width, take)

/-- `ChunkCursor`, with the bytes from its position on. -/
structure ChunkCursor where
  bytes : Bytes
  remaining : ℕ
  count : ℕ

def ChunkCursor.new (bytes : Bytes) (maxValues : ℕ) : Except ZuError ChunkCursor :=
  if bytes.length < 4 then .error (.corrupt "for_bitpack" "truncated count")
  else
    let count := fromLe (bytes.take 4)
    if maxValues < count then
      .error (.corrupt "for_bitpack" s!"claims {count} values, caller allows {maxValues}")
    else .ok { bytes := bytes.drop 4, remaining := count, count }

def ChunkCursor.next (c : ChunkCursor) :
    Except ZuError (Option (Word × List Word × ℕ) × ChunkCursor) :=
  if c.remaining = 0 then .ok (none, c)
  else do
    let (chunk, bytes) ← readChunk c.remaining c.bytes
    return (some chunk, { c with bytes, remaining := c.remaining - chunk.2.2 })

variable {σ : Type}

/-- Hands each chunk to `sink`; a chunk is never empty, so `remaining` bounds the
chunks there are. -/
def chunkLoop (sink : σ → Word → List Word → ℕ → σ) :
    ℕ → ChunkCursor → σ → Except ZuError σ
  | 0, _, s => .ok s
  | fuel + 1, c, s => do
      match ← c.next with
      | (none, _) => return s
      | (some (min, scratch, take), c) => chunkLoop sink fuel c (sink s min scratch take)

def decodeChunks (bytes : Bytes) (maxValues : ℕ) (sink : σ → Word → List Word → ℕ → σ) (s : σ) :
    Except ZuError σ := do
  let c ← ChunkCursor.new bytes maxValues
  chunkLoop sink c.remaining c s

/-- `for_bitpack::decode`: the values it appends to `out`. -/
def decode (bytes : Bytes) (maxValues : ℕ) : Except ZuError (List Word) :=
  decodeChunks bytes maxValues
    (fun out min scratch take => out ++ (scratch.take take).map fun v => min + v) []

/-! ### The frame of a chunk -/

theorem foldl_le {P : Word → Word → Prop} (hrefl : ∀ a, P a a)
    (htrans : ∀ a b c, P a b → P b c → P a c) {pick : Word → Word → Word}
    (hleft : ∀ m x, P (pick m x) m) (hright : ∀ m x, P (pick m x) x) (values : List Word)
    (m : Word) : P (values.foldl pick m) m ∧ ∀ v ∈ values, P (values.foldl pick m) v := by
  induction values generalizing m with
  | nil => exact ⟨hrefl m, fun v hv => absurd hv List.not_mem_nil⟩
  | cons x values ih =>
      obtain ⟨hm, hrest⟩ := ih (pick m x)
      refine ⟨htrans _ _ _ hm (hleft m x), fun v hv => ?_⟩
      cases List.mem_cons.1 hv with
      | inl hv =>
          subst hv
          exact htrans _ _ _ hm (hright m v)
      | inr hv => exact hrest v hv

theorem foldl_mem {pick : Word → Word → Word} (hpick : ∀ m x, pick m x = m ∨ pick m x = x)
    (values : List Word) (m : Word) : values.foldl pick m ∈ m :: values := by
  induction values generalizing m with
  | nil => exact List.mem_singleton_self m
  | cons x values ih =>
      rw [List.foldl_cons]
      have hmem := ih (pick m x)
      rw [List.mem_cons] at hmem ⊢
      rw [List.mem_cons]
      cases hmem with
      | inl hmem =>
          rw [hmem]
          exact (hpick m x).imp id .inl
      | inr hmem => exact .inr (.inr hmem)

end ForBitpack

open ForBitpack in
theorem least_le {values : List Word} {v : Word} (hv : v ∈ values) :
    (least values).toNat ≤ v.toNat := by
  cases values with
  | nil => exact absurd hv List.not_mem_nil
  | cons a values =>
      have hfold := @foldl_le (fun a b : Word => a.toNat ≤ b.toNat) (fun a => le_rfl)
        (fun a b c => le_trans) (fun m x => if x < m then x else m)
        (fun m x => by
          split
          · rename_i h
            exact (BitVec.lt_def.1 h).le
          · exact le_rfl)
        (fun m x => by
          split
          · exact le_rfl
          · rename_i h
            exact not_lt.1 fun hlt => h (BitVec.lt_def.2 hlt)) values a
      cases List.mem_cons.1 hv with
      | inl hv => exact hv ▸ hfold.1
      | inr hv => exact hfold.2 v hv

open ForBitpack in
theorem le_greatest {values : List Word} {v : Word} (hv : v ∈ values) :
    v.toNat ≤ (greatest values).toNat := by
  cases values with
  | nil => exact absurd hv List.not_mem_nil
  | cons a values =>
      have hfold := @foldl_le (fun a b : Word => b.toNat ≤ a.toNat) (fun a => le_rfl)
        (fun a b c h h' => le_trans h' h) (fun m x => if m < x then x else m)
        (fun m x => by
          split
          · rename_i h
            exact (BitVec.lt_def.1 h).le
          · exact le_rfl)
        (fun m x => by
          split
          · exact le_rfl
          · rename_i h
            exact not_lt.1 fun hlt => h (BitVec.lt_def.2 hlt)) values a
      cases List.mem_cons.1 hv with
      | inl hv => exact hv ▸ hfold.1
      | inr hv => exact hfold.2 v hv

open ForBitpack in
theorem least_mem {values : List Word} (h : values ≠ []) : least values ∈ values := by
  cases values with
  | nil => exact absurd rfl h
  | cons a values =>
      exact foldl_mem (fun m x => by
        split
        · exact .inr rfl
        · exact .inl rfl) values a

open ForBitpack in
theorem greatest_mem {values : List Word} (h : values ≠ []) : greatest values ∈ values := by
  cases values with
  | nil => exact absurd rfl h
  | cons a values =>
      exact foldl_mem (fun m x => by
        split
        · exact .inr rfl
        · exact .inl rfl) values a

theorem toNat_sub_of_le {a b : Word} (h : b.toNat ≤ a.toNat) : (a - b).toNat = a.toNat - b.toNat :=
  BitVec.toNat_sub_of_le (BitVec.le_def.2 h)

namespace ForBitpack

/-- What is left of a value over the minimum fits the width of its chunk. -/
theorem sub_least_lt {chunk : List Word} {v : Word} (hv : v ∈ chunk) :
    (v - least chunk).toNat < 2 ^ bitsNeeded (greatest chunk - least chunk) := by
  have hle := least_le hv
  have hge := le_greatest hv
  refine lt_of_le_of_lt ?_ (lt_two_pow_bitsNeeded (greatest chunk - least chunk))
  rw [toNat_sub_of_le hle, toNat_sub_of_le (hle.trans hge)]
  exact Nat.sub_le_sub_right hge _

/-! ### Reading back what was written -/

section

variable {chunk : List Word} (hlen : chunk.length ≤ chunkLen)

def chunkHeader (chunk : List Word) : Bytes :=
  leBytes 8 (least chunk).toNat ++ leBytes 1 (bitsNeeded (greatest chunk - least chunk))

theorem encodeChunk_eq (chunk : List Word) : encodeChunk chunk = chunkHeader chunk ++
    pack (chunk.map (· - least chunk)) (bitsNeeded (greatest chunk - least chunk)) := by
  rw [encodeChunk, chunkHeader, List.append_assoc]

theorem chunkHeader_min (chunk : List Word) :
    BitVec.ofNat 64 (fromLe ((chunkHeader chunk).take 8)) = least chunk := by
  rw [chunkHeader, List.take_left' (length_leBytes 8 _), word_fromLe]

theorem chunkHeader_width (chunk : List Word) :
    fromLe ((chunkHeader chunk).drop 8) = bitsNeeded (greatest chunk - least chunk) := by
  have hw := bitsNeeded_le (greatest chunk - least chunk)
  rw [chunkHeader, List.drop_left' (length_leBytes 8 _), fromLe_leBytes_of_lt (by omega)]

/-- The minimum, the chunk without it, and how many of it count. -/
def chunkRead (chunk : List Word) : Word × List Word × ℕ :=
  (least chunk,
    unpack (pack (chunk.map (· - least chunk)) (bitsNeeded (greatest chunk - least chunk)))
      (bitsNeeded (greatest chunk - least chunk)),
    chunk.length)

theorem length_packed (chunk : List Word) :
    (pack (chunk.map (· - least chunk)) (bitsNeeded (greatest chunk - least chunk))).length =
      packedBytes (bitsNeeded (greatest chunk - least chunk)) chunk.length := by
  rw [length_pack (bitsNeeded_le _), List.length_map]

include hlen

theorem map_chunkRead : ((chunkRead chunk).2.1.take (chunkRead chunk).2.2).map
    (fun v => (chunkRead chunk).1 + v) = chunk := by
  have hfits : ∀ v ∈ chunk.map (· - least chunk),
      v.toNat < 2 ^ bitsNeeded (greatest chunk - least chunk) := by
    intro v hv
    obtain ⟨x, hx, rfl⟩ := List.mem_map.1 hv
    exact sub_least_lt hx
  have hback := unpack_pack (by rwa [List.length_map]) hfits (bitsNeeded_le _)
  rw [List.length_map] at hback
  rw [chunkRead, hback, List.map_map]
  refine (List.map_congr_left fun v _ => ?_).trans (List.map_id chunk)
  rw [Function.comp_apply, id, BitVec.add_comm, BitVec.sub_add_cancel]

end

def body (values : List Word) : Bytes := (chunks chunkLen values).flatMap encodeChunk

@[simp] theorem body_nil : body [] = [] := rfl

theorem body_of_ne_nil {values : List Word} (h : values ≠ []) :
    body values = encodeChunk (values.take chunkLen) ++ body (values.drop chunkLen) := by
  rw [body, chunks_of_ne_nil (by decide) h, List.flatMap_cons, body]

theorem length_chunkHeader (chunk : List Word) : (chunkHeader chunk).length = 9 := by
  rw [chunkHeader, List.length_append, length_leBytes, length_leBytes]

theorem not_width_over (chunk : List Word) : ¬ 64 < fromLe ((chunkHeader chunk).drop 8) := by
  rw [chunkHeader_width]
  exact not_lt.2 (bitsNeeded_le _)

theorem min_length (values : List Word) :
    min values.length chunkLen = (values.take chunkLen).length := by
  rw [List.length_take, Nat.min_comm]

theorem decodes_readChunk (values : List Word) :
    Decodes (readChunk values.length) (encodeChunk (values.take chunkLen))
      (chunkRead (values.take chunkLen)) := by
  rw [readChunk, encodeChunk_eq, min_length]
  apply (decodes_takeBytes (length_chunkHeader _) _).bind
  rw [← List.nil_append (pack _ _)]
  apply (decodes_rejectIf (not_width_over _) _).bind
  rw [chunkHeader_width]
  refine (decodes_takeBytes (length_packed _) _).bind_pure ?_
  rw [chunkHeader_min, chunkRead]

theorem starves_readChunk (values : List Word) :
    Starves (readChunk values.length) (encodeChunk (values.take chunkLen)) := by
  rw [readChunk, encodeChunk_eq, min_length]
  apply (starves_takeBytes (length_chunkHeader _) _).bind
    (decodes_takeBytes (length_chunkHeader _) _)
  rw [← List.nil_append (pack _ _)]
  apply Starves.bind _ (decodes_rejectIf (not_width_over _) _)
  · rw [chunkHeader_width]
    exact (starves_takeBytes (length_packed _) _).bind_any _
  · intro k hk
    exact absurd hk (Nat.not_lt_zero k)

/-- The cursor at the values it still has to give, with what follows them. -/
def cursorAt (count : ℕ) (values : List Word) (rest : Bytes) : ChunkCursor :=
  { bytes := body values ++ rest, remaining := values.length, count }

theorem next_cursorAt (count : ℕ) {values : List Word} (h : values ≠ []) (rest : Bytes) :
    (cursorAt count values rest).next =
      .ok (some (chunkRead (values.take chunkLen)),
        cursorAt count (values.drop chunkLen) rest) := by
  have hrem : ¬ (cursorAt count values rest).remaining = 0 :=
    (List.length_pos_of_ne_nil h).ne'
  have hleft : values.length - (values.take chunkLen).length = (values.drop chunkLen).length := by
    rw [List.length_take, List.length_drop]
    omega
  rw [ChunkCursor.next, if_neg hrem]
  change (readChunk values.length (body values ++ rest) >>= _) = _
  rw [body_of_ne_nil h, List.append_assoc, decodes_readChunk]
  change Except.ok _ = Except.ok _
  rw [cursorAt, cursorAt, ← hleft]
  rfl

/-- A container that ends too early is refused, or has lost no chunk yet. -/
theorem next_short (count : ℕ) {values : List Word} {k : ℕ} (hk : k < (body values).length) :
    (∃ e, ChunkCursor.next
        { bytes := (body values).take k, remaining := values.length, count } = .error e) ∨
      values ≠ [] ∧ ∃ k' < (body (values.drop chunkLen)).length,
        ChunkCursor.next { bytes := (body values).take k, remaining := values.length, count } =
          .ok (some (chunkRead (values.take chunkLen)),
            { bytes := (body (values.drop chunkLen)).take k'
              remaining := (values.drop chunkLen).length, count }) := by
  have hne : values ≠ [] := by
    rintro rfl
    exact Nat.not_lt_zero k hk
  have hrem : ¬ values.length = 0 := (List.length_pos_of_ne_nil hne).ne'
  rw [body_of_ne_nil hne] at hk ⊢
  by_cases hshort : k < (encodeChunk (values.take chunkLen)).length
  · left
    obtain ⟨e, he⟩ := starves_readChunk values k hshort
    refine ⟨e, ?_⟩
    rw [ChunkCursor.next, if_neg hrem, List.take_append_of_le_length hshort.le]
    change (readChunk values.length _ >>= _) = _
    rw [he]
    rfl
  · right
    have hle := not_lt.1 hshort
    have hleft : values.length - (values.take chunkLen).length =
        (values.drop chunkLen).length := by
      rw [List.length_take, List.length_drop]
      omega
    rw [List.length_append] at hk
    refine ⟨hne, k - (encodeChunk (values.take chunkLen)).length, by omega, ?_⟩
    rw [ChunkCursor.next, if_neg hrem, List.take_append, List.take_of_length_le hle]
    change (readChunk values.length _ >>= _) = _
    rw [decodes_readChunk]
    change Except.ok _ = Except.ok _
    rw [← hleft]
    rfl

theorem encode_eq (values : List Word) : encode values = leBytes 4 values.length ++ body values :=
  rfl

/-- The cursor over a container, under the ceiling of its caller. -/
theorem new_encode {values : List Word} (h : values.length < 2 ^ 32) (rest : Bytes)
    {maxValues : ℕ} (hmax : values.length ≤ maxValues) :
    ChunkCursor.new (encode values ++ rest) maxValues =
      .ok (cursorAt values.length values rest) := by
  have hlen : ¬ (encode values ++ rest).length < 4 := by
    rw [encode_eq, List.length_append, List.length_append, length_leBytes]
    omega
  have hcount : fromLe ((encode values ++ rest).take 4) = values.length := by
    rw [encode_eq, List.append_assoc, List.take_left' (length_leBytes 4 _),
      fromLe_leBytes_of_lt (by omega)]
  rw [ChunkCursor.new, if_neg hlen]
  simp only [hcount]
  rw [if_neg (not_lt.2 hmax), encode_eq, List.append_assoc, List.drop_left' (length_leBytes 4 _)]
  rfl

theorem new_encode_over {values : List Word} (h : values.length < 2 ^ 32) (rest : Bytes)
    {maxValues : ℕ} (hmax : maxValues < values.length) :
    ∃ e, ChunkCursor.new (encode values ++ rest) maxValues = .error e := by
  have hlen : ¬ (encode values ++ rest).length < 4 := by
    rw [encode_eq, List.length_append, List.length_append, length_leBytes]
    omega
  have hcount : fromLe ((encode values ++ rest).take 4) = values.length := by
    rw [encode_eq, List.append_assoc, List.take_left' (length_leBytes 4 _),
      fromLe_leBytes_of_lt (by omega)]
  rw [ChunkCursor.new, if_neg hlen]
  simp only [hcount]
  rw [if_pos hmax]
  exact ⟨_, rfl⟩

/-- The cursor over a container cut short, when there is one. -/
theorem new_encode_short {values : List Word} (h : values.length < 2 ^ 32) {k maxValues : ℕ}
    (hk : k < (encode values).length) {c : ChunkCursor}
    (hnew : ChunkCursor.new ((encode values).take k) maxValues = .ok c) :
    k - 4 < (body values).length ∧
      c = { bytes := (body values).take (k - 4), remaining := values.length
            count := values.length } := by
  have htotal : (encode values).length = 4 + (body values).length := by
    rw [encode_eq, List.length_append, length_leBytes]
  have hlen : ((encode values).take k).length = k := List.length_take_of_le hk.le
  rw [ChunkCursor.new, hlen] at hnew
  split at hnew
  · exact nomatch hnew
  · rename_i hfour
    have hhead : ((encode values).take k).take 4 = leBytes 4 values.length := by
      rw [List.take_take, Nat.min_eq_left (not_lt.1 hfour), encode_eq,
        List.take_left' (length_leBytes 4 _)]
    have htail : ((encode values).take k).drop 4 = (body values).take (k - 4) := by
      rw [List.drop_take, encode_eq, List.drop_left' (length_leBytes 4 _)]
    simp only [hhead, htail, fromLe_leBytes_of_lt (show values.length < 256 ^ 4 by omega)] at hnew
    split at hnew
    · exact nomatch hnew
    · cases hnew
      exact ⟨by omega, rfl⟩

section

variable {σ : Type} (sink : σ → Word → List Word → ℕ → σ)

def sinkChunk (s : σ) (chunk : List Word) : σ :=
  sink s (chunkRead chunk).1 (chunkRead chunk).2.1 (chunkRead chunk).2.2

theorem chunkLoop_cursorAt (count : ℕ) (values : List Word) (rest : Bytes) {fuel : ℕ}
    (hfuel : values.length ≤ fuel) (s : σ) :
    chunkLoop sink fuel (cursorAt count values rest) s =
      .ok ((chunks chunkLen values).foldl (sinkChunk sink) s) := by
  induction values using chunks_induction (n := chunkLen) (by decide) generalizing fuel s with
  | nil => cases fuel <;> rfl
  | step values hne ih =>
      cases fuel with
      | zero => exact absurd (List.length_pos_of_ne_nil hne) (not_lt.2 hfuel)
      | succ fuel =>
          have hdrop : (values.drop chunkLen).length ≤ fuel := by
            have hpos := List.length_pos_of_ne_nil hne
            rw [List.length_drop, chunkLen]
            omega
          rw [chunkLoop, next_cursorAt count hne, ok_bind]
          change chunkLoop sink fuel _ _ = _
          rw [ih hdrop, chunks_of_ne_nil (by decide) hne]
          rfl

theorem decodeChunks_encode {values : List Word} (h : values.length < 2 ^ 32) (rest : Bytes)
    {maxValues : ℕ} (hmax : values.length ≤ maxValues) (s : σ) :
    decodeChunks (encode values ++ rest) maxValues sink s =
      .ok ((chunks chunkLen values).foldl (sinkChunk sink) s) := by
  rw [decodeChunks, new_encode h rest hmax, ok_bind]
  exact chunkLoop_cursorAt sink _ values rest le_rfl s

theorem decodeChunks_encode_over {values : List Word} (h : values.length < 2 ^ 32) (rest : Bytes)
    {maxValues : ℕ} (hmax : maxValues < values.length) (s : σ) :
    ∃ e, decodeChunks (encode values ++ rest) maxValues sink s = .error e := by
  obtain ⟨e, he⟩ := new_encode_over h rest hmax
  exact ⟨e, by rw [decodeChunks, he]; rfl⟩

end

theorem decode_encode {values : List Word} (h : values.length < 2 ^ 32) (rest : Bytes)
    {maxValues : ℕ} (hmax : values.length ≤ maxValues) :
    decode (encode values ++ rest) maxValues = .ok values := by
  have hfold : ∀ (parts : List (List Word)) (out : List Word),
      (∀ p ∈ parts, p.length ≤ chunkLen) →
        parts.foldl (sinkChunk fun out min scratch take =>
          out ++ (scratch.take take).map fun v => min + v) out = out ++ parts.flatten := by
    intro parts
    induction parts with
    | nil => exact fun out _ => (List.append_nil out).symm
    | cons p parts ih =>
        intro out hparts
        rw [List.foldl_cons, ih _ fun q hq => hparts q (List.mem_cons_of_mem _ hq), sinkChunk,
          map_chunkRead (hparts p List.mem_cons_self), List.flatten_cons, List.append_assoc]
  rw [decode, decodeChunks_encode _ h rest hmax, hfold _ _ fun p hp =>
    length_le_of_mem_chunks (by decide) hp, List.nil_append, flatten_chunks (by decide)]

theorem decode_encode_over {values : List Word} (h : values.length < 2 ^ 32) (rest : Bytes)
    {maxValues : ℕ} (hmax : maxValues < values.length) :
    ∃ e, decode (encode values ++ rest) maxValues = .error e :=
  decodeChunks_encode_over _ h rest hmax _

section

variable {σ : Type} (sink : σ → Word → List Word → ℕ → σ)

/-- A container that ends too early is refused by the loop over its chunks. -/
theorem chunkLoop_short (count : ℕ) {values : List Word} {k : ℕ}
    (hk : k < (body values).length) {fuel : ℕ} (hfuel : values.length ≤ fuel) (s : σ) :
    ∃ e, chunkLoop sink fuel
      { bytes := (body values).take k, remaining := values.length, count } s = .error e := by
  induction values using chunks_induction (n := chunkLen) (by decide) generalizing k fuel s with
  | nil => exact absurd hk (Nat.not_lt_zero k)
  | step values hne ih =>
      cases fuel with
      | zero => exact absurd (List.length_pos_of_ne_nil hne) (not_lt.2 hfuel)
      | succ fuel =>
          have hdrop : (values.drop chunkLen).length ≤ fuel := by
            have hpos := List.length_pos_of_ne_nil hne
            rw [List.length_drop, chunkLen]
            omega
          rw [chunkLoop]
          rcases next_short count hk with ⟨e, he⟩ | ⟨-, k', hk', hnext⟩
          · exact ⟨e, by rw [he]; rfl⟩
          · rw [hnext, ok_bind]
            exact ih hk' hdrop _

end

theorem decode_short {values : List Word} (h : values.length < 2 ^ 32) {k : ℕ}
    (hk : k < (encode values).length) (maxValues : ℕ) :
    ∃ e, decode ((encode values).take k) maxValues = .error e := by
  rw [decode, decodeChunks]
  cases hnew : ChunkCursor.new ((encode values).take k) maxValues with
  | error e => exact ⟨e, rfl⟩
  | ok c =>
      obtain ⟨hshort, rfl⟩ := new_encode_short h hk hnew
      exact chunkLoop_short _ _ hshort le_rfl []

theorem remaining_of_new {bytes : Bytes} {maxValues : ℕ} {c : ChunkCursor}
    (h : ChunkCursor.new bytes maxValues = .ok c) : c.remaining = c.count := by
  rw [ChunkCursor.new] at h
  split at h
  · exact nomatch h
  · simp only [] at h
    split at h
    · exact nomatch h
    · cases h
      rfl

theorem next_some {c c' : ChunkCursor} {min : Word} {scratch : List Word} {take : ℕ}
    (h : c.next = .ok (some (min, scratch, take), c')) :
    take + c'.remaining = c.remaining := by
  rw [ChunkCursor.next] at h
  split_ifs at h
  · cases h
  · obtain ⟨⟨chunk, bytes⟩, hread, h⟩ := except_bind_ok.1 h
    cases h
    rw [readChunk] at hread
    obtain ⟨header, mid, -, hread⟩ := reader_bind_ok.1 hread
    obtain ⟨u, mid', -, hread⟩ := reader_bind_ok.1 hread
    obtain ⟨packed, mid'', -, hread⟩ := reader_bind_ok.1 hread
    cases reader_pure_ok.1 hread
    change Nat.min c.remaining chunkLen + (c.remaining - Nat.min c.remaining chunkLen) = _
    exact Nat.add_sub_cancel' (Nat.min_le_left _ _)

end ForBitpack

end Zu.Encoding
