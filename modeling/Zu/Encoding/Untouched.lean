import Zu.Encoding.Appended

/-!
# What a failed decode appended

The decoders over their vectors are the decoders, with what was in the vector in
front. One that fails has left its vector as it was unless it appends chunk by chunk
and its first chunk reads.
-/

namespace Zu.Encoding

open Lib ForBitpack

/-! ### The decoders without their vectors -/

namespace ForBitpack

variable {σ : Type} {sink : σ → Word → List Word → ℕ → σ}

theorem decodeChunksInto_map {τ : Type} {sink' : τ → Word → List Word → ℕ → τ} {f : σ → τ}
    (h : ∀ s min scratch take, sink' (f s) min scratch take = f (sink s min scratch take))
    (bytes : Bytes) (maxValues : ℕ) (s : σ) :
    decodeChunksInto bytes maxValues sink' (f s) =
      ((decodeChunksInto bytes maxValues sink s).1, f (decodeChunksInto bytes maxValues sink s).2) := by
  rw [decodeChunksInto, decodeChunksInto]
  cases ChunkCursor.new bytes maxValues with
  | error e => rfl
  | ok c =>
      apply pull_map
      intro s b
      rw [total, total, h]

theorem decodeInto_eq (bytes : Bytes) (maxValues : ℕ) (out : List Word) :
    decodeInto bytes maxValues out =
      ((decodeInto bytes maxValues []).1, out ++ (decodeInto bytes maxValues []).2) := by
  have h := @decodeChunksInto_map _ appendChunk _ appendChunk (out ++ ·)
    (fun s min scratch take => by rw [appendChunk, appendChunk, List.append_assoc])
    bytes maxValues []
  rwa [List.append_nil] at h

/-- A chunk that was read has its values, and at least one of them counts. -/
theorem step_spec {c c' : ChunkCursor} {chunk : Word × List Word × ℕ}
    (h : c.step = .ok (some (chunk, c'))) :
    chunk.2.1.length = chunkLen ∧ 0 < chunk.2.2 ∧ chunk.2.2 ≤ chunkLen := by
  rw [ChunkCursor.step, ChunkCursor.next] at h
  by_cases hrem : c.remaining = 0
  · rw [if_pos hrem] at h
    cases h
  · rw [if_neg hrem] at h
    cases hread : readChunk c.remaining c.bytes with
    | error e =>
        rw [hread] at h
        cases h
    | ok read =>
        rw [hread] at h
        cases h
        rw [readChunk] at hread
        obtain ⟨header, mid, -, h₁⟩ := reader_bind_ok.1 hread
        obtain ⟨u, mid', -, h₂⟩ := reader_bind_ok.1 h₁
        obtain ⟨packed, mid'', -, h₃⟩ := reader_bind_ok.1 h₂
        rw [reader_pure_ok.1 h₃]
        refine ⟨length_unpack _ _, ?_, Nat.min_le_right _ _⟩
        exact Nat.lt_min.2 ⟨Nat.pos_of_ne_zero hrem, by decide⟩

/-- Whether a container claims values, within the ceiling, and its first chunk is
whole. -/
def opens (bytes : Bytes) (maxValues : ℕ) : Bool :=
  let count := fromLe (bytes.take 4)
  let chunk := bytes.drop 4
  let width := fromLe ((chunk.take 9).drop 8)
  4 ≤ bytes.length ∧ 0 < count ∧ count ≤ maxValues ∧ 9 ≤ chunk.length ∧ width ≤ 64 ∧
    9 + packedBytes width (min count chunkLen) ≤ chunk.length

theorem readChunk_reads_iff (remaining : ℕ) (bytes : Bytes) :
    (∃ out, readChunk remaining bytes = .ok out) ↔ 9 ≤ bytes.length ∧
      fromLe ((bytes.take 9).drop 8) ≤ 64 ∧
      9 + packedBytes (fromLe ((bytes.take 9).drop 8)) (min remaining chunkLen) ≤ bytes.length := by
  constructor
  · rintro ⟨out, h⟩
    rw [readChunk] at h
    obtain ⟨header, mid, hheader, h₁⟩ := reader_bind_ok.1 h
    obtain ⟨u, mid', hwidth, h₂⟩ := reader_bind_ok.1 h₁
    obtain ⟨packed, mid'', hpacked, -⟩ := reader_bind_ok.1 h₂
    obtain ⟨hlen, heq⟩ := takeBytes_ok.1 hheader
    cases heq
    obtain ⟨hle, heq⟩ := rejectIf_ok.1 hwidth
    cases heq
    have hbody := (takeBytes_ok.1 hpacked).1
    rw [List.length_drop] at hbody
    exact ⟨hlen, Nat.not_lt.1 hle, by omega⟩
  · rintro ⟨hlen, hle, hbody⟩
    refine ⟨_, reader_bind_ok.2 ⟨_, _, takeBytes_ok.2 ⟨hlen, rfl⟩, reader_bind_ok.2
      ⟨_, _, rejectIf_ok.2 ⟨Nat.not_lt.2 hle, rfl⟩, reader_bind_ok.2
        ⟨_, _, takeBytes_ok.2 ⟨?_, rfl⟩, rfl⟩⟩⟩⟩
    rw [List.length_drop]
    omega

theorem step_reads_iff (c : ChunkCursor) : (∃ p, c.step = .ok (some p)) ↔
    c.remaining ≠ 0 ∧ ∃ out, readChunk c.remaining c.bytes = .ok out := by
  rw [ChunkCursor.step, ChunkCursor.next]
  by_cases hrem : c.remaining = 0
  · rw [if_pos hrem]
    exact iff_of_false (by rintro ⟨p, h⟩; cases h) fun h => h.1 hrem
  · rw [if_neg hrem]
    cases hread : readChunk c.remaining c.bytes with
    | error e => exact iff_of_false (by rintro ⟨p, h⟩; cases h) (by rintro ⟨-, out, h⟩; cases h)
    | ok out => exact iff_of_true ⟨_, rfl⟩ ⟨hrem, out, rfl⟩

theorem opens_iff {bytes : Bytes} {maxValues : ℕ} {c : ChunkCursor}
    (h : ChunkCursor.new bytes maxValues = .ok c) :
    opens bytes maxValues = true ↔ ∃ p, c.step = .ok (some p) := by
  rw [step_reads_iff, readChunk_reads_iff, opens, decide_eq_true_eq]
  rw [ChunkCursor.new] at h
  split at h
  · cases h
  · next hlong =>
      simp only at h
      split at h
      · cases h
      · next hmax =>
          cases h
          exact ⟨fun h => ⟨h.2.1.ne', h.2.2.2⟩, fun h =>
            ⟨Nat.not_lt.1 hlong, Nat.pos_of_ne_zero h.1, Nat.not_lt.1 hmax, h.2⟩⟩

theorem not_opens_of_error {bytes : Bytes} {maxValues : ℕ} {e : ZuError}
    (h : ChunkCursor.new bytes maxValues = .error e) : opens bytes maxValues = false := by
  rw [opens, decide_eq_false_iff_not]
  rintro ⟨hlong, -, hmax, -⟩
  rw [ChunkCursor.new, if_neg (Nat.not_lt.2 hlong)] at h
  simp only [if_neg (Nat.not_lt.2 hmax)] at h
  cases h

/-- A container appends something when its first chunk reads, and only then. -/
theorem decodeChunksInto_size_iff {size : σ → ℕ}
    (hle : ∀ s min scratch take, size s ≤ size (sink s min scratch take))
    (hlt : ∀ s min scratch take, scratch.length = chunkLen → 0 < take → take ≤ chunkLen →
      size s < size (sink s min scratch take))
    {bytes : Bytes} {maxValues : ℕ} {s : σ} :
    size (decodeChunksInto bytes maxValues sink s).2 = size s ↔ opens bytes maxValues = false := by
  rw [decodeChunksInto]
  cases hnew : ChunkCursor.new bytes maxValues with
  | error err => exact iff_of_true rfl (not_opens_of_error hnew)
  | ok c =>
      simp only [attempt]
      cases hfuel : c.remaining with
      | zero =>
          apply iff_of_true rfl
          rw [← Bool.not_eq_true, opens_iff hnew, step_reads_iff]
          exact fun h => h.1 hfuel
      | succ fuel =>
          rw [pull_size_eq_iff (fun s b => hle s _ _ _) fun b c' hb => hlt s _ _ _
            (step_spec hb).1 (step_spec hb).2.1 (step_spec hb).2.2, ← Bool.not_eq_true,
            opens_iff hnew]
          constructor
          · exact fun h ⟨p, hp⟩ => h p.1 p.2 hp
          · exact fun h b c' hb => h ⟨_, hb⟩

end ForBitpack

theorem eq_iff_length_eq {out r t : List Word} (h : r = out ++ t) :
    r = out ↔ r.length = out.length := by
  constructor
  · exact fun heq => congrArg List.length heq
  · intro hlen
    rw [h, List.length_append] at hlen
    have ht : t = [] := List.eq_nil_of_length_eq_zero (by omega)
    rw [h, ht, List.append_nil]

theorem length_undeltas (prev : Word) (ds : List Word) : (undeltas prev ds).length = ds.length := by
  induction ds generalizing prev with
  | nil => rfl
  | cons d ds ih => rw [undeltas, List.length_cons, ih, List.length_cons]

theorem ForBitpack.decodeInto_untouched_iff {bytes : Bytes} {maxValues : ℕ} {out : List Word} :
    (ForBitpack.decodeInto bytes maxValues out).2 = out ↔
      ForBitpack.opens bytes maxValues = false := by
  have heq := congrArg Prod.snd (ForBitpack.decodeInto_eq bytes maxValues out)
  rw [eq_iff_length_eq heq]
  apply @decodeChunksInto_size_iff _ _ List.length
  · intro s min scratch take
    rw [appendChunk, List.length_append]
    exact Nat.le_add_right _ _
  · intro s min scratch take hlen hpos htake
    rw [appendChunk, List.length_append, List.length_map, List.length_take]
    omega

namespace Delta

theorem appendDeltas_append (out : List Word) (s : Word × List Word) (min : Word)
    (scratch : List Word) (take : ℕ) : appendDeltas (s.1, out ++ s.2) min scratch take =
      ((appendDeltas s min scratch take).1, out ++ (appendDeltas s min scratch take).2) := by
  rw [appendDeltas, appendDeltas, List.append_assoc]

theorem decodeInto_eq (bytes : Bytes) (maxValues : ℕ) (out : List Word) :
    decodeInto bytes maxValues out =
      ((decodeInto bytes maxValues []).1, out ++ (decodeInto bytes maxValues []).2) := by
  rw [decodeInto, decodeInto]
  split
  · rw [List.append_nil]
  · have h := @decodeChunksInto_map _ appendDeltas _ appendDeltas
      (fun s : Word × List Word => (s.1, out ++ s.2))
      (fun s min scratch take => appendDeltas_append out s min scratch take)
      (bytes.drop 8) maxValues (BitVec.ofNat 64 (fromLe (bytes.take 8)), [])
    rw [List.append_nil] at h
    simp only [h]

theorem decodeInto_untouched_iff {bytes : Bytes} {maxValues : ℕ} {out : List Word} :
    (decodeInto bytes maxValues out).2 = out ↔ ForBitpack.opens (bytes.drop 8) maxValues = false := by
  have heq := congrArg Prod.snd (decodeInto_eq bytes maxValues out)
  rw [eq_iff_length_eq heq]
  rw [decodeInto]
  split
  · rename_i hshort
    apply iff_of_true rfl
    rw [List.drop_eq_nil_of_le hshort.le]
    rfl
  · apply @decodeChunksInto_size_iff _ _ (fun s : Word × List Word => s.2.length)
    · intro s min scratch take
      rw [appendDeltas, List.length_append]
      exact Nat.le_add_right _ _
    · intro s min scratch take hlen hpos htake
      rw [appendDeltas, List.length_append, length_undeltas, List.length_map, List.length_take]
      omega

end Delta

namespace Patch

variable {σ : Type} {sink : σ → List Word → ℕ → σ}

theorem decodeChunksInto_map {τ : Type} {sink' : τ → List Word → ℕ → τ} {f : σ → τ}
    (h : ∀ s values take, sink' (f s) values take = f (sink s values take))
    (bytes : Bytes) (maxValues : ℕ) (s : σ) :
    decodeChunksInto bytes maxValues sink' (f s) =
      ((decodeChunksInto bytes maxValues sink s).1, f (decodeChunksInto bytes maxValues sink s).2) := by
  rw [decodeChunksInto, decodeChunksInto]
  cases start bytes maxValues with
  | error e => rfl
  | ok c =>
      apply pull_map
      intro s b
      rw [total, total, h]

theorem length_patch (take : ℕ) (bits : List ℕ) (excs low : List Word) :
    (patch take bits excs low).length = low.length := by
  induction bits generalizing excs low with
  | nil => rfl
  | cons i bits ih =>
      rw [patch, ih]
      split
      · rw [List.length_set]
      · rfl

/-- A chunk that was read has its values, and at least one of them counts. -/
theorem step_spec {c c' : Place} {chunk : List Word × ℕ} (h : step c = .ok (some (chunk, c'))) :
    chunk.1.length = chunkLen ∧ 0 < chunk.2 ∧ chunk.2 ≤ chunkLen := by
  rw [step] at h
  by_cases hrem : c.1 = 0
  · rw [if_pos hrem] at h
    cases h
  · rw [if_neg hrem] at h
    cases hread : readChunk c.1 c.2 with
    | error e =>
        rw [hread] at h
        cases h
    | ok read =>
        rw [hread] at h
        cases h
        rw [readChunk] at hread
        obtain ⟨header, bs₁, -, h₁⟩ := reader_bind_ok.1 hread
        obtain ⟨u, bs₂, -, h₂⟩ := reader_bind_ok.1 h₁
        obtain ⟨packed, bs₃, -, h₃⟩ := reader_bind_ok.1 h₂
        obtain ⟨bitmap, bs₄, -, h₄⟩ := reader_bind_ok.1 h₃
        obtain ⟨packedExcs, bs₅, -, h₅⟩ := reader_bind_ok.1 h₄
        rw [reader_pure_ok.1 h₅]
        refine ⟨(length_patch _ _ _ _).trans (length_unpack _ _), ?_, Nat.min_le_right _ _⟩
        exact Nat.lt_min.2 ⟨Nat.pos_of_ne_zero hrem, by decide⟩

/-- Whether a container claims values, within the ceiling, and its first chunk is
whole: the slots, the bitmap and the exceptions the bitmap asks for. -/
def opens (bytes : Bytes) (maxValues : ℕ) : Bool :=
  let count := fromLe (bytes.take 4)
  let chunk := bytes.drop 4
  let width := fromLe ((chunk.take 2).take 1)
  let excWidth := fromLe ((chunk.take 2).drop 1)
  let slots := packedBytes width (min count chunkLen)
  let flags := packedBytes 1 (min count chunkLen)
  let bitmap := ((chunk.drop 2).drop slots).take flags
  4 ≤ bytes.length ∧ 0 < count ∧ count ≤ maxValues ∧ 2 ≤ chunk.length ∧
    (width ≤ 64 ∧ excWidth ≤ 64) ∧
    2 + slots + flags + packedBytes excWidth (bitmap.map countOnes).sum ≤ chunk.length

theorem readChunk_reads_iff (remaining : ℕ) (bytes : Bytes) :
    (∃ out, readChunk remaining bytes = .ok out) ↔
      2 ≤ bytes.length ∧
      (fromLe ((bytes.take 2).take 1) ≤ 64 ∧ fromLe ((bytes.take 2).drop 1) ≤ 64) ∧
      2 + packedBytes (fromLe ((bytes.take 2).take 1)) (min remaining chunkLen) +
        packedBytes 1 (min remaining chunkLen) +
        packedBytes (fromLe ((bytes.take 2).drop 1))
          ((((bytes.drop 2).drop (packedBytes (fromLe ((bytes.take 2).take 1))
            (min remaining chunkLen))).take (packedBytes 1 (min remaining chunkLen))).map
              countOnes).sum ≤ bytes.length := by
  constructor
  · rintro ⟨out, h⟩
    rw [readChunk] at h
    obtain ⟨header, bs₁, hheader, h₁⟩ := reader_bind_ok.1 h
    obtain ⟨u, bs₂, hwidth, h₂⟩ := reader_bind_ok.1 h₁
    obtain ⟨packed, bs₃, hpacked, h₃⟩ := reader_bind_ok.1 h₂
    obtain ⟨bitmap, bs₄, hbitmap, h₄⟩ := reader_bind_ok.1 h₃
    obtain ⟨packedExcs, bs₅, hexcs, -⟩ := reader_bind_ok.1 h₄
    obtain ⟨hlen, heq⟩ := takeBytes_ok.1 hheader
    cases heq
    obtain ⟨hle, heq⟩ := rejectIf_ok.1 hwidth
    cases heq
    obtain ⟨hslots, heq⟩ := takeBytes_ok.1 hpacked
    cases heq
    obtain ⟨hflags, heq⟩ := takeBytes_ok.1 hbitmap
    cases heq
    have hbody := (takeBytes_ok.1 hexcs).1
    rw [not_or, Nat.not_lt, Nat.not_lt] at hle
    simp only [List.length_drop] at hslots hflags hbody
    exact ⟨hlen, hle, by omega⟩
  · rintro ⟨hlen, hle, hbody⟩
    refine ⟨_, reader_bind_ok.2 ⟨_, _, takeBytes_ok.2 ⟨hlen, rfl⟩, reader_bind_ok.2
      ⟨_, _, rejectIf_ok.2 ⟨?_, rfl⟩, reader_bind_ok.2
        ⟨_, _, takeBytes_ok.2 ⟨?_, rfl⟩, reader_bind_ok.2
          ⟨_, _, takeBytes_ok.2 ⟨?_, rfl⟩, reader_bind_ok.2
            ⟨_, _, takeBytes_ok.2 ⟨?_, rfl⟩, rfl⟩⟩⟩⟩⟩⟩
    · rw [not_or, Nat.not_lt, Nat.not_lt]
      exact hle
    all_goals
      simp only [List.length_drop]
      omega

theorem step_reads_iff (c : Place) : (∃ p, step c = .ok (some p)) ↔
    c.1 ≠ 0 ∧ ∃ out, readChunk c.1 c.2 = .ok out := by
  rw [step]
  by_cases hrem : c.1 = 0
  · rw [if_pos hrem]
    exact iff_of_false (fun ⟨p, h⟩ => nomatch h) fun h => h.1 hrem
  · rw [if_neg hrem]
    cases hread : readChunk c.1 c.2 with
    | error e => exact iff_of_false (fun ⟨p, h⟩ => nomatch h) fun ⟨_, out, h⟩ => nomatch h
    | ok out => exact iff_of_true ⟨_, rfl⟩ ⟨hrem, out, rfl⟩

theorem opens_iff {bytes : Bytes} {maxValues : ℕ} {c : Place}
    (h : start bytes maxValues = .ok c) :
    opens bytes maxValues = true ↔ ∃ p, step c = .ok (some p) := by
  rw [step_reads_iff, readChunk_reads_iff, opens, decide_eq_true_eq]
  rw [start] at h
  split at h
  · cases h
  · next hlong =>
      simp only at h
      split at h
      · cases h
      · next hmax =>
          cases h
          exact ⟨fun ⟨_, hpos, _, hrest⟩ => ⟨hpos.ne', hrest⟩, fun ⟨hne, hrest⟩ =>
            ⟨Nat.not_lt.1 hlong, Nat.pos_of_ne_zero hne, Nat.not_lt.1 hmax, hrest⟩⟩

theorem not_opens_of_error {bytes : Bytes} {maxValues : ℕ} {e : ZuError}
    (h : start bytes maxValues = .error e) : opens bytes maxValues = false := by
  rw [opens, decide_eq_false_iff_not]
  rintro ⟨hlong, -, hmax, -⟩
  rw [start, if_neg (Nat.not_lt.2 hlong)] at h
  simp only [if_neg (Nat.not_lt.2 hmax)] at h
  cases h

/-- A container appends something when its first chunk reads, and only then. -/
theorem decodeChunksInto_size_iff {size : σ → ℕ}
    (hle : ∀ s values take, size s ≤ size (sink s values take))
    (hlt : ∀ s values take, values.length = chunkLen → 0 < take → take ≤ chunkLen →
      size s < size (sink s values take))
    {bytes : Bytes} {maxValues : ℕ} {s : σ} :
    size (decodeChunksInto bytes maxValues sink s).2 = size s ↔ opens bytes maxValues = false := by
  rw [decodeChunksInto]
  cases hstart : start bytes maxValues with
  | error err => exact iff_of_true rfl (not_opens_of_error hstart)
  | ok c =>
      simp only [attempt]
      cases hfuel : c.1 with
      | zero =>
          apply iff_of_true rfl
          rw [← Bool.not_eq_true, opens_iff hstart, step_reads_iff]
          exact fun h => h.1 hfuel
      | succ fuel =>
          rw [pull_size_eq_iff (fun s b => hle s _ _) fun b c' hb => hlt s _ _
            (step_spec hb).1 (step_spec hb).2.1 (step_spec hb).2.2, ← Bool.not_eq_true,
            opens_iff hstart]
          constructor
          · exact fun h ⟨p, hp⟩ => h p.1 p.2 hp
          · exact fun h b c' hb => h ⟨_, hb⟩

end Patch

namespace DeltaPatch

theorem appendDeltas_append (out : List Word) (s : Word × List Word) (ds : List Word)
    (take : ℕ) : appendDeltas (s.1, out ++ s.2) ds take =
      ((appendDeltas s ds take).1, out ++ (appendDeltas s ds take).2) := by
  rw [appendDeltas, appendDeltas, List.append_assoc]

theorem decodeInto_eq (bytes : Bytes) (maxValues : ℕ) (out : List Word) :
    decodeInto bytes maxValues out =
      ((decodeInto bytes maxValues []).1, out ++ (decodeInto bytes maxValues []).2) := by
  rw [decodeInto, decodeInto]
  split
  · rw [List.append_nil]
  · have h := @Patch.decodeChunksInto_map _ appendDeltas _ appendDeltas
      (fun s : Word × List Word => (s.1, out ++ s.2))
      (fun s ds take => appendDeltas_append out s ds take)
      (bytes.drop 8) maxValues (BitVec.ofNat 64 (fromLe (bytes.take 8)), [])
    rw [List.append_nil] at h
    simp only [h]

theorem decodeInto_untouched_iff {bytes : Bytes} {maxValues : ℕ} {out : List Word} :
    (decodeInto bytes maxValues out).2 = out ↔ Patch.opens (bytes.drop 8) maxValues = false := by
  have heq := congrArg Prod.snd (decodeInto_eq bytes maxValues out)
  rw [eq_iff_length_eq heq]
  rw [decodeInto]
  split
  · rename_i hshort
    apply iff_of_true rfl
    rw [List.drop_eq_nil_of_le hshort.le]
    rfl
  · apply @Patch.decodeChunksInto_size_iff _ _ (fun s : Word × List Word => s.2.length)
    · intro s ds take
      rw [appendDeltas, List.length_append]
      exact Nat.le_add_right _ _
    · intro s ds take hlen hpos htake
      rw [appendDeltas, List.length_append, length_undeltas, List.length_take]
      omega

end DeltaPatch

end Zu.Encoding
