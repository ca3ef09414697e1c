import Zu.Encoding.Priced

/-!
# The cascade round trip

What `encode_auto` writes, `decode_any` reads back under every ceiling that allows it
and refuses under every other one. The exception is a run encoding whose container of
run values takes 2 ^ 32 bytes or more: the header has four bytes for its length, and
nothing checks that it fits.
-/

namespace Zu.Encoding

open Lib

/-- What an id has `decode_any` do with a payload. -/
def decodeWith : EncodingId → Bytes → ℕ → Except ZuError (List Word)
  | .plain => Plain.decode
  | .constant => Constant.decode
  | .rle => Rle.decode
  | .dict => Dict.decode
  | .forBitPack => ForBitpack.decode
  | .deltaBitPack => Delta.decode
  | .deltaPatch => DeltaPatch.decode
  | .boolBitpack => BoolBitpack.decode
  | .frequency => Frequency.decode
  | other => fun _ _ => .error (.unsupported "segment encoding" other.toByte)

theorem decodeAny_eq (id : EncodingId) (payload : Bytes) (maxValues : ℕ) :
    decodeAny (leBytes 1 id.toByte ++ payload) maxValues = decodeWith id payload maxValues := by
  cases id <;> rfl

/-- What an encoding wrote comes back under a ceiling that allows it, and is an error
under one that does not. -/
def Trips (values : List Word) (id : EncodingId) : Prop :=
  (∀ maxValues, values.length ≤ maxValues →
    decodeWith id (encodeWith id values) maxValues = .ok values) ∧
  ∀ maxValues, maxValues < values.length →
    ∃ e, decodeWith id (encodeWith id values) maxValues = .error e

/-- The round trip of a segment. -/
def RoundTrips (values : List Word) : Prop :=
  (∀ maxValues, values.length ≤ maxValues →
    decodeAny (encodeAuto values) maxValues = .ok values) ∧
  ∀ maxValues, maxValues < values.length → ∃ e, decodeAny (encodeAuto values) maxValues = .error e

theorem roundTrips_iff_trips (values : List Word) :
    RoundTrips values ↔ Trips values (shipped values) := by
  rw [RoundTrips, Trips, encodeAuto]
  simp only [decodeAny_eq]

/-- What the container of the values of the runs takes. -/
def runValuesBytes (values : List Word) : ℕ :=
  4 + ((chunks chunkLen ((Rle.runs values).map Prod.fst)).map fun c =>
    9 + packedBytes (bitsNeeded (greatest c - least c)) c.length).sum

theorem length_valuesBuf (values : List Word) :
    (Rle.valuesBuf values).length = runValuesBytes values := by
  rw [Rle.valuesBuf, ForBitpack.length_encode]
  rfl

section

variable {values : List Word} (h : values.length < 2 ^ 32)

include h

theorem trips_plain : Trips values .plain := by
  constructor
  · exact fun _ hmax => Plain.decode_encode h hmax
  · exact fun _ hmax => Plain.decode_encode_over h hmax

theorem trips_constant (hall : ∀ v ∈ values, v = values.headD 0) : Trips values .constant := by
  constructor
  · exact fun _ hmax => Constant.decode_encode h hall hmax
  · exact fun _ hmax => Constant.decode_encode_over h hmax

theorem trips_boolBitpack (hbin : ∀ v ∈ values, v.toNat ≤ 1) : Trips values .boolBitpack := by
  constructor
  · exact fun _ hmax => BoolBitpack.decode_encode h hbin hmax
  · exact fun _ hmax => BoolBitpack.decode_encode_over h hmax

theorem trips_forBitPack : Trips values .forBitPack := by
  constructor
  · intro maxValues hmax
    have hback := ForBitpack.decode_encode h [] hmax
    rwa [List.append_nil] at hback
  · intro maxValues hmax
    have hover := ForBitpack.decode_encode_over h [] hmax
    rwa [List.append_nil] at hover

theorem trips_deltaBitPack : Trips values .deltaBitPack := by
  constructor
  · intro maxValues hmax
    have hback := Delta.decode_encode h [] hmax
    rwa [List.append_nil] at hback
  · intro maxValues hmax
    have hover := Delta.decode_encode_over h [] hmax
    rwa [List.append_nil] at hover

theorem trips_deltaPatch : Trips values .deltaPatch := by
  constructor
  · intro maxValues hmax
    have hback := DeltaPatch.decode_encode h [] hmax
    rwa [List.append_nil] at hback
  · intro maxValues hmax
    have hover := DeltaPatch.decode_encode_over h [] hmax
    rwa [List.append_nil] at hover

theorem trips_dict (hlegal : values.toFinset.card ≤ Dict.maxEntries) : Trips values .dict := by
  constructor
  · exact fun _ hmax => Dict.decode_encode h hlegal hmax
  · exact fun _ hmax => Dict.decode_encode_over h hlegal hmax

theorem trips_frequency (hfits : (Frequency.positionsBuf values).length < 2 ^ 32) :
    Trips values .frequency := by
  constructor
  · exact fun _ hmax => Frequency.decode_encode h hfits hmax
  · exact fun _ hmax => Frequency.decode_encode_over h hmax

/-- Runs come back as long as the length of their first container fits its field. -/
theorem trips_rle_iff : Trips values .rle ↔ runValuesBytes values < 2 ^ 32 := by
  constructor
  · intro htrips
    by_contra hcut
    rw [← length_valuesBuf, not_lt] at hcut
    obtain ⟨e, he⟩ := Rle.decode_encode_cut h hcut values.length
    have hok : Rle.decode (Rle.encode values) values.length = .ok values :=
      htrips.1 values.length le_rfl
    rw [he] at hok
    cases hok
  · intro hfits
    rw [← length_valuesBuf] at hfits
    constructor
    · intro maxValues hmax
      exact Rle.decode_encode h hfits hmax
    · intro maxValues hmax
      exact Rle.decode_encode_over h hmax

/-- Runs that are chosen are shipped: their price is below plain and not below what
they take. -/
theorem shipped_of_choose_rle (hrle : choose values = .rle) : shipped values = .rle := by
  have hne : values ≠ [] := by
    rintro rfl
    cases hrle
  have hsize : ∃ size, priceOf values .rle = some size ∧ size < 4 + values.length * 8 := by
    cases choose_cases hne with
    | inl hconstant =>
        rw [hrle] at hconstant
        cases hconstant.1
    | inr hrest =>
        cases hrest with
        | inl hplain =>
            rw [hrle] at hplain
            cases hplain
        | inr hcandidate =>
            obtain ⟨-, size, hprice, hlt, -⟩ := hcandidate
            rw [hrle] at hprice
            exact ⟨size, hprice, hlt⟩
  obtain ⟨size, hprice, hlt⟩ := hsize
  have hle := length_encode_rle_le hne (h.trans (by decide)) hprice
  have hguard : ¬ 9 + values.length * 8 < 1 + (encodeWith .rle values).length := by
    change ¬ 9 + values.length * 8 < 1 + (Rle.encode values).length
    omega
  rw [shipped, hrle]
  exact if_neg hguard

/-- Every other encoding that is chosen comes back. -/
theorem trips_choose (hrle : choose values ≠ .rle) : Trips values (choose values) := by
  by_cases hne : values = []
  · subst hne
    exact trips_plain h
  · cases choose_cases hne with
    | inl hconstant =>
        rw [hconstant.1]
        exact trips_constant h hconstant.2
    | inr hrest =>
        cases hrest with
        | inl hplain =>
            rw [hplain]
            exact trips_plain h
        | inr hcandidate =>
            obtain ⟨hmem, size, hprice, -, hall⟩ := hcandidate
            have hfor := hall .forBitPack (by decide) _ (priceOf_for hne)
            generalize choose values = id at hmem hprice hrle ⊢
            cases id with
            | boolBitpack => exact trips_boolBitpack h (priceOf_boolBitpack hprice)
            | forBitPack => exact trips_forBitPack h
            | deltaBitPack => exact trips_deltaBitPack h
            | deltaPatch => exact trips_deltaPatch h
            | rle => exact absurd rfl hrle
            | dict => exact trips_dict h (priceOf_dict hprice)
            | frequency => exact trips_frequency h (length_positionsBuf_lt h hne hprice hfor)
            | plain => exact absurd hmem (by decide)
            | constant => exact absurd hmem (by decide)
            | alp => exact absurd hmem (by decide)
            | alpRd => exact absurd hmem (by decide)
            | fsst => exact absurd hmem (by decide)
            | zstd => exact absurd hmem (by decide)

omit h in
theorem shipped_cases (values : List Word) :
    shipped values = .plain ∨ shipped values = choose values := by
  rw [shipped]
  split
  · exact .inl rfl
  · exact .inr rfl

end

/-- A segment comes back unless the selector picks the run encoding and the container
of the run values is too long for its length field. -/
theorem roundTrips_iff (values : List Word) (h : values.length < 2 ^ 32) :
    RoundTrips values ↔ ¬ (choose values = .rle ∧ 2 ^ 32 ≤ runValuesBytes values) := by
  rw [roundTrips_iff_trips]
  by_cases hrle : choose values = .rle
  · rw [shipped_of_choose_rle h hrle, trips_rle_iff h, not_and, not_le]
    exact ⟨fun hfits _ => hfits, fun hfits => hfits hrle⟩
  · apply iff_of_true
    · cases shipped_cases values with
      | inl hplain =>
          rw [hplain]
          exact trips_plain h
      | inr hchoose =>
          rw [hchoose]
          exact trips_choose h hrle
    · exact fun hcut => hrle hcut.1

theorem roundTrips_seven : RoundTrips [7, 7, 9] := by
  refine (roundTrips_iff [7, 7, 9] (by decide)).2 fun hcut => ?_
  exact absurd hcut.2 (by decide)

/-! ### Runs of two -/

/-- Even values count from zero, odd ones from the middle. -/
def jump (k : ℕ) : Word := BitVec.ofNat 64 (k + 2 ^ 63 * (k % 2))

/-- The first values of it, each one twice. -/
def twice (n : ℕ) : List Word := ((List.range n).map jump).flatMap fun v => [v, v]

theorem toNat_jump {k : ℕ} (hk : k < 2 ^ 63) : (jump k).toNat = k + 2 ^ 63 * (k % 2) := by
  rw [jump, BitVec.toNat_ofNat, Nat.mod_eq_of_lt (by omega)]

theorem jump_inj {j k : ℕ} (hj : j < 2 ^ 63) (hk : k < 2 ^ 63) (h : jump j = jump k) : j = k := by
  have hval := congrArg BitVec.toNat h
  rw [toNat_jump hj, toNat_jump hk] at hval
  cases Nat.mod_two_eq_zero_or_one j with
  | inl hjEven =>
      cases Nat.mod_two_eq_zero_or_one k with
      | inl hkEven => rwa [hjEven, hkEven] at hval
      | inr hkOdd =>
          rw [hjEven, hkOdd] at hval
          omega
  | inr hjOdd =>
      cases Nat.mod_two_eq_zero_or_one k with
      | inl hkEven =>
          rw [hjOdd, hkEven] at hval
          omega
      | inr hkOdd =>
          rw [hjOdd, hkOdd] at hval
          exact Nat.add_right_cancel hval

theorem jump_sub (k : ℕ) : jump (k + 1) - jump k = BitVec.ofNat 64 (2 ^ 63 + 1) := by
  apply BitVec.eq_of_toNat_eq
  rw [BitVec.toNat_sub, jump, jump, BitVec.toNat_ofNat, BitVec.toNat_ofNat, BitVec.toNat_ofNat]
  cases Nat.mod_two_eq_zero_or_one k with
  | inl heven =>
      have hodd : (k + 1) % 2 = 1 := by omega
      rw [heven, hodd]
      omega
  | inr hodd =>
      have heven : (k + 1) % 2 = 0 := by omega
      rw [heven, hodd]
      omega

theorem twice_eq (n : ℕ) : twice n = (List.range (2 * n)).map fun i => jump (i / 2) := by
  rw [twice]
  induction n with
  | zero => rfl
  | succ n ih =>
      rw [List.range_succ, List.map_append, List.flatMap_append, ih, Nat.mul_succ, List.range_add,
        List.map_append]
      congr 1
      have heven : (2 * n + 0) / 2 = n := by omega
      have hodd : (2 * n + 1) / 2 = n := by omega
      change [jump n, jump n] = [jump ((2 * n + 0) / 2), jump ((2 * n + 1) / 2)]
      rw [heven, hodd]

theorem length_twice (n : ℕ) : (twice n).length = 2 * n := by
  rw [twice_eq, List.length_map, List.length_range]

/-- Values that never repeat the one before are the runs, when each is there twice. -/
theorem runs_twice (l : List Word) (h : l.IsChain (· ≠ ·)) :
    Rle.runs (l.flatMap fun v => [v, v]) = l.map fun v => (v, 2) := by
  have hfrom : ∀ (l : List Word) (v : Word), (v :: l).IsChain (· ≠ ·) →
      Rle.runsFrom v 2 (l.flatMap fun v => [v, v]) = (v, 2) :: l.map fun v => (v, 2) := by
    intro l
    induction l with
    | nil => exact fun v _ => rfl
    | cons w l ih =>
        intro v hchain
        obtain ⟨hne, hrest⟩ := List.isChain_cons_cons.1 hchain
        have hnext := ih w hrest
        rw [List.flatMap_cons, List.cons_append, List.cons_append, List.nil_append, Rle.runsFrom,
          if_neg hne.symm, Rle.runsFrom, if_pos rfl, hnext, List.map_cons]
  cases l with
  | nil => rfl
  | cons v l =>
      rw [List.flatMap_cons, List.cons_append, Rle.runs, List.cons_append, List.nil_append,
        Rle.runsFrom, if_pos rfl]
      exact hfrom l v h

theorem count_twice (l : List Word) (a : Word) :
    (l.flatMap fun v => [v, v]).count a = 2 * l.count a := by
  induction l with
  | nil => rfl
  | cons v l ih =>
      rw [List.flatMap_cons, List.count_append, ih, List.count_cons, List.count_cons,
        List.count_cons, List.count_nil]
      split <;> omega

/-- Two values far apart make a chunk as wide as a word. -/
theorem le_chunkWidth {chunk : List Word} {a b : Word} (ha : a ∈ chunk) (hb : b ∈ chunk)
    (hfar : a.toNat + 2 ^ 63 ≤ b.toNat) : 64 ≤ chunkWidth chunk := by
  have hlow := least_le ha
  have hhigh := le_greatest hb
  by_contra hlt
  have hsmall := bitsNeeded_le_iff.1 (Nat.le_of_lt_succ (not_le.1 hlt))
  rw [toNat_sub_of_le ((least_le hb).trans hhigh)] at hsmall
  omega

theorem deltas_range' (f : ℕ → Word) (s n : ℕ) :
    deltas (f s) ((List.range' (s + 1) n).map f) =
      (List.range' (s + 1) n).map fun i => zigzag (f i - f (i - 1)) := by
  induction n generalizing s with
  | zero => rfl
  | succ n ih =>
      rw [List.range'_succ, List.map_cons, deltas, ih, List.map_cons, Nat.add_sub_cancel]

theorem deltas_map_range (f : ℕ → Word) (n : ℕ) :
    deltas (f 0) ((List.range n).map f) =
      (List.range n).map fun i => zigzag (f i - f (i - 1)) := by
  cases n with
  | zero => rfl
  | succ n =>
      rw [List.range_eq_range', List.range'_succ, List.map_cons, deltas, Nat.zero_add,
        deltas_range', List.map_cons]

/-- The delta that leads from a run of two to the next. -/
def leap : Word := zigzag (BitVec.ofNat 64 (2 ^ 63 + 1))

theorem toNat_leap : leap.toNat = 2 ^ 64 - 3 := by decide

theorem bitsNeeded_leap : bitsNeeded leap = 64 := by decide

/-- The deltas of runs of two: none within a run, a leap into each but the first. -/
theorem deltas_twice (n : ℕ) : deltas ((twice n).headD 0) (twice n) =
    (List.range (2 * n)).map fun i => if i % 2 = 0 ∧ i ≠ 0 then leap else 0 := by
  have hhead : (twice n).headD 0 = jump (0 / 2) := by
    cases n with
    | zero => rfl
    | succ n =>
        rw [twice_eq, Nat.mul_succ, List.range_succ_eq_map]
        rfl
  rw [hhead, twice_eq, deltas_map_range fun i => jump (i / 2)]
  apply List.map_congr_left
  intro i _
  split
  · rename_i heven
    obtain ⟨k, hk⟩ : ∃ k, i = 2 * (k + 1) := ⟨i / 2 - 1, by omega⟩
    have hnext : i / 2 = k + 1 := by omega
    have hprev : (i - 1) / 2 = k := by omega
    rw [hnext, hprev, jump_sub, leap]
  · rename_i hodd
    have hsame : (i - 1) / 2 = i / 2 := by omega
    rw [hsame, BitVec.sub_self]
    rfl

section

variable (p : ℕ)

/-- The values whose container is too long at `p = 2 ^ 19`. -/
def pairs : List Word := twice (1024 * p)

theorem length_pairs : (pairs p).length = chunkLen * (2 * p) := by
  rw [pairs, length_twice, chunkLen]
  ring

theorem pairs_eq : pairs p = (List.range (chunkLen * (2 * p))).map fun i => jump (i / 2) := by
  have hlen : 2 * (1024 * p) = chunkLen * (2 * p) := by
    rw [chunkLen]
    ring
  rw [pairs, twice_eq, hlen]

theorem deltas_pairs : deltas ((pairs p).headD 0) (pairs p) =
    (List.range (chunkLen * (2 * p))).map fun i => if i % 2 = 0 ∧ i ≠ 0 then leap else 0 := by
  have hlen : 2 * (1024 * p) = chunkLen * (2 * p) := by
    rw [chunkLen]
    ring
  rw [pairs, deltas_twice, hlen]

theorem mem_deltas_chunk {c : List Word}
    (hc : c ∈ chunks chunkLen (deltas ((pairs p).headD 0) (pairs p))) :
    (0 : Word) ∈ c ∧ leap ∈ c := by
  rw [deltas_pairs, chunks_map_range (by decide)] at hc
  obtain ⟨i, -, rfl⟩ := List.mem_map.1 hc
  constructor
  · refine List.mem_map.2 ⟨1, List.mem_range.2 (by decide), if_neg ?_⟩
    rw [chunkLen]
    omega
  · refine List.mem_map.2 ⟨2, List.mem_range.2 (by decide), if_pos ?_⟩
    rw [chunkLen]
    omega

theorem le_for_pairs (hp : p ≤ 2 ^ 19) :
    forBytes (chunkLen * (2 * p)) 64 ≤ (ForBitpack.encode (pairs p)).length := by
  rw [← length_pairs]
  apply le_length_encode
  intro c hc
  rw [pairs_eq, chunks_map_range (by decide)] at hc
  obtain ⟨i, hi, rfl⟩ := List.mem_map.1 hc
  have hlt := List.mem_range.1 hi
  have hlow : jump ((chunkLen * i + 0) / 2) ∈
      (List.range chunkLen).map fun j => jump ((chunkLen * i + j) / 2) :=
    List.mem_map_of_mem (f := fun j => jump ((chunkLen * i + j) / 2))
      (List.mem_range.2 (by decide))
  have hhigh : jump ((chunkLen * i + 2) / 2) ∈
      (List.range chunkLen).map fun j => jump ((chunkLen * i + j) / 2) :=
    List.mem_map_of_mem (f := fun j => jump ((chunkLen * i + j) / 2))
      (List.mem_range.2 (by decide))
  apply le_chunkWidth hlow hhigh
  rw [chunkLen, toNat_jump (by omega), toNat_jump (by omega)]
  omega

theorem le_delta_pairs : forBytes (chunkLen * (2 * p)) 64 ≤
    (ForBitpack.encode (deltas ((pairs p).headD 0) (pairs p))).length := by
  rw [← length_pairs, ← length_deltas ((pairs p).headD 0) (pairs p)]
  apply le_length_encode
  intro c hc
  obtain ⟨hzero, hleap⟩ := mem_deltas_chunk p hc
  apply le_chunkWidth hzero hleap
  rw [toNat_leap]
  decide

/-- The leaps of a chunk are exceptions at every width below a word's. -/
theorem le_excsAt {w : ℕ} (hw : w < 64) {c : List Word}
    (hc : c ∈ chunks chunkLen (deltas ((pairs p).headD 0) (pairs p))) : 511 ≤ excsAt c w := by
  have hcount : (List.range chunkLen).countP (fun j => decide (j % 2 = 0 ∧ j ≠ 0)) = 511 := by
    decide +kernel
  rw [deltas_pairs, chunks_map_range (by decide)] at hc
  obtain ⟨i, -, rfl⟩ := List.mem_map.1 hc
  rw [excsAt, List.countP_map, ← hcount]
  apply List.countP_mono_left
  intro j _ hj
  have hat : (chunkLen * i + j) % 2 = 0 ∧ chunkLen * i + j ≠ 0 := by
    have heven := of_decide_eq_true hj
    rw [chunkLen]
    omega
  rw [Function.comp_apply, decide_eq_true_eq, if_pos hat, bitsNeeded_leap]
  exact hw

theorem le_patch_pairs : 4 + 2 * p * 4218 ≤
    (Patch.encode (deltas ((pairs p).headD 0) (pairs p))).length := by
  have hchunk : ∀ c ∈ chunks chunkLen (deltas ((pairs p).headD 0) (pairs p)),
      4218 ≤ (Patch.encodeChunk c).length := by
    intro c hc
    have hlen : c.length = chunkLen := by
      rw [deltas_pairs, chunks_map_range (by decide)] at hc
      obtain ⟨i, -, rfl⟩ := List.mem_map.1 hc
      rw [List.length_map, List.length_range]
    have hwidest : Patch.widest c = 64 := by
      have hge := Patch.bitsNeeded_le_widest (mem_deltas_chunk p hc).2
      rw [bitsNeeded_leap] at hge
      exact le_antisymm (Patch.widest_le c) hge
    rw [length_patchChunk, costAt, hlen, hwidest, packedBytes_full, packedBytes_full, packedBytes]
    by_cases hw : Patch.pickWidth c < 64
    · have hexcs := le_excsAt p hw hc
      omega
    · omega
  have hsum := List.card_nsmul_le_sum
    ((chunks chunkLen (deltas ((pairs p).headD 0) (pairs p))).map
      fun c => (Patch.encodeChunk c).length) 4218 (by
    intro n hn
    obtain ⟨c, hc, rfl⟩ := List.mem_map.1 hn
    exact hchunk c hc)
  have hcount : (chunks chunkLen (deltas ((pairs p).headD 0) (pairs p))).length = 2 * p := by
    rw [deltas_pairs, chunks_map_range (by decide), List.length_map, List.length_range]
  rw [List.length_map, hcount] at hsum
  change 2 * p * 4218 ≤ _ at hsum
  rw [Patch.encode_eq, List.length_append, length_leBytes, Patch.body, List.length_flatMap]
  exact Nat.add_le_add_left hsum 4

end

/-! ### The container that is too long -/

section

variable {p : ℕ} (hp : p ≤ 2 ^ 19)

include hp

theorem nodup_jumps : ((List.range (1024 * p)).map jump).Nodup := by
  apply List.Nodup.map_on _ List.nodup_range
  intro i hi j hj heq
  have hlt := List.mem_range.1 hi
  have hlt' := List.mem_range.1 hj
  exact jump_inj (by omega) (by omega) heq

theorem runs_pairs :
    Rle.runs (pairs p) = ((List.range (1024 * p)).map jump).map fun v => (v, 2) := by
  apply runs_twice
  exact (nodup_jumps hp).isChain

theorem length_runs_pairs : (Rle.runs (pairs p)).length = 1024 * p := by
  rw [runs_pairs hp, List.length_map, List.length_map, List.length_range]

/-- The container of the run values takes eight bytes for each. -/
theorem le_runValuesBytes : 8192 * p ≤ runValuesBytes (pairs p) := by
  have hvalues : (Rle.runs (pairs p)).map Prod.fst = (List.range (chunkLen * p)).map jump := by
    rw [runs_pairs hp, List.map_map]
    exact List.map_id _
  have hlen : ((Rle.runs (pairs p)).map Prod.fst).length = 1024 * p := by
    rw [List.length_map, length_runs_pairs hp]
  have hle := @le_length_encode ((Rle.runs (pairs p)).map Prod.fst) 64 (by
    intro c hc
    rw [hvalues, chunks_map_range (by decide)] at hc
    obtain ⟨i, hi, rfl⟩ := List.mem_map.1 hc
    have hlt := List.mem_range.1 hi
    have hmem : ∀ j < chunkLen, jump (chunkLen * i + j) ∈
        (List.range chunkLen).map fun j => jump (chunkLen * i + j) := fun j hj =>
      List.mem_map_of_mem (f := fun j => jump (chunkLen * i + j)) (List.mem_range.2 hj)
    apply le_chunkWidth (hmem 0 (by decide)) (hmem 1 (by decide))
    rw [chunkLen, toNat_jump (by omega), toNat_jump (by omega)]
    omega)
  rw [← length_valuesBuf, Rle.valuesBuf]
  rw [hlen, forBytes, packedBytes] at hle
  omega

variable (hpos : 8 < p)

include hpos

theorem pairs_ne_nil : pairs p ≠ [] := by
  apply List.ne_nil_of_length_pos
  rw [length_pairs, chunkLen]
  omega

theorem mem_pairs {k : ℕ} (hk : k < 2) : jump k ∈ pairs p := by
  rw [pairs, twice, List.mem_flatMap]
  exact ⟨jump k, List.mem_map_of_mem (List.mem_range.2 (by omega)), List.mem_cons_self⟩

theorem priceOf_rle_pairs : ∃ size, priceOf (pairs p) .rle = some size ∧
    size ≤ 16 + 9 * (2 * p) + 8192 * p := by
  have hspread : runSpread (pairs p) = 0 := by
    have hlens : (Rle.runs (pairs p)).map Prod.snd = List.replicate (1024 * p) 2 := by
      rw [runs_pairs hp, List.map_map, List.eq_replicate_iff]
      constructor
      · rw [List.length_map, List.length_map, List.length_range]
      · intro n hn
        obtain ⟨v, -, rfl⟩ := List.mem_map.1 hn
        rfl
    obtain ⟨k, hk⟩ : ∃ k, 1024 * p = k + 1 := ⟨1024 * p - 1, by omega⟩
    have hsame : ∀ k, (List.replicate k 2).foldl Nat.max 2 = 2 ∧
        (List.replicate k 2).foldl Nat.min 2 = 2 := by
      intro k
      induction k with
      | zero => exact ⟨rfl, rfl⟩
      | succ k ih => exact ih
    rw [runSpread, hlens, hk, List.replicate_succ, List.foldl_cons, List.foldl_cons]
    change BitVec.ofNat 64 ((List.replicate k 2).foldl Nat.max 2 -
      (List.replicate k 2).foldl Nat.min 2) = 0
    rw [(hsame k).1, (hsame k).2]
    rfl
  have hwidth := packedBytes_mono
    (bitsNeeded_le (greatest (pairs p) - least (pairs p))) (1024 * p)
  refine ⟨_, priceOf_rle (pairs_ne_nil hp hpos), ?_⟩
  have hzero : bitsNeeded 0 = 0 := rfl
  have hnone : packedBytes 0 (1024 * p) = 0 := by
    rw [packedBytes, Nat.mul_zero]
  have hall : packedBytes 64 (1024 * p) = 8192 * p := by
    rw [packedBytes]
    omega
  have hchunks : (1024 * p + chunkLen - 1) / chunkLen = p := by
    rw [chunkLen]
    omega
  rw [length_runs_pairs hp, hspread, hzero, forBytes, forBytes, hnone, hchunks]
  omega

omit hpos in
theorem topCount_pairs (cap : ℕ) : (count (pairs p) cap).topCount ≤ 2 := by
  have hle : (count (pairs p) cap).topCount ≤ (pairs p).count (count (pairs p) cap).top :=
    topCount_countIn_le 0 (pairs p) cap
  have hone := List.nodup_iff_count_le_one.1 (nodup_jumps hp) (count (pairs p) cap).top
  have htwo : (pairs p).count (count (pairs p) cap).top = _ := count_twice _ _
  omega

theorem le_frequency_pairs {size : ℕ} (hsize : priceOf (pairs p) .frequency = some size) :
    16 + 8 * (2048 * p - 2) ≤ size := by
  have htop := topCount_pairs hp Dict.maxEntries
  have hlen : (pairs p).length = 2048 * p := by
    rw [length_pairs, chunkLen]
    ring
  have hwide : bitsNeeded (greatest (pairs p) - least (pairs p)) = 64 := by
    have hge : 64 ≤ chunkWidth (pairs p) :=
      le_chunkWidth (mem_pairs hp hpos (k := 0) (by norm_num))
        (mem_pairs hp hpos (k := 1) (by norm_num)) (by decide)
    exact le_antisymm (bitsNeeded_le _) hge
  rw [priceOf_frequency (pairs_ne_nil hp hpos), hwide, hlen] at hsize
  have hprice := Option.some.inj hsize
  rw [forBytes, forBytes, packedBytes, packedBytes] at hprice
  omega

theorem choose_pairs : choose (pairs p) = .rle := by
  have hne := pairs_ne_nil hp hpos
  obtain ⟨size, hprice, hsize⟩ := priceOf_rle_pairs hp hpos
  have hlen : (pairs p).length = 2048 * p := by
    rw [length_pairs, chunkLen]
    ring
  have hwhole : forBytes (chunkLen * (2 * p)) 64 = 4 + 2 * p * 8201 := by
    rw [forBytes, packedBytes, chunkLen]
    omega
  have hdiff : jump 1 ≠ jump 0 := by decide
  apply choose_eq hne (by decide) hprice
  · omega
  · by_cases hhead : jump 0 = (pairs p).headD 0
    · exact ⟨jump 1, mem_pairs hp hpos (by norm_num), hhead ▸ hdiff⟩
    · exact ⟨jump 0, mem_pairs hp hpos (by norm_num), hhead⟩
  · intro id hid hother size' hsize'
    cases id with
    | rle => exact absurd rfl hother
    | boolBitpack =>
        have hbin := priceOf_boolBitpack hsize' _ (mem_pairs hp hpos (k := 1) (by norm_num))
        exact absurd hbin (by decide)
    | forBitPack =>
        have hle := le_for_pairs p hp
        rw [priceOf_for hne] at hsize'
        have heq := Option.some.inj hsize'
        omega
    | deltaBitPack =>
        have hle := le_delta_pairs p
        rw [priceOf_delta hne] at hsize'
        have heq := Option.some.inj hsize'
        omega
    | deltaPatch =>
        have hle := le_patch_pairs p
        rw [priceOf_patch hne] at hsize'
        have heq := Option.some.inj hsize'
        omega
    | dict =>
        have hcard := priceOf_dict hsize'
        have hsub : ((List.range (1024 * p)).map jump).toFinset ⊆ (pairs p).toFinset := by
          intro v hv
          rw [List.mem_toFinset] at hv ⊢
          rw [pairs, twice, List.mem_flatMap]
          exact ⟨v, hv, List.mem_cons_self⟩
        have hle := (Finset.card_le_card hsub).trans hcard
        rw [List.toFinset_card_of_nodup (nodup_jumps hp), List.length_map, List.length_range,
          Dict.maxEntries] at hle
        omega
    | frequency =>
        have hle := le_frequency_pairs hp hpos hsize'
        omega
    | plain => exact absurd hid (by decide)
    | constant => exact absurd hid (by decide)
    | alp => exact absurd hid (by decide)
    | alpRd => exact absurd hid (by decide)
    | fsst => exact absurd hid (by decide)
    | zstd => exact absurd hid (by decide)

end

/-- The run values of 2 ^ 30 words, each there twice, take more than 2 ^ 32 bytes, and
their container comes back as an error. -/
theorem pairs_not_roundTrips :
    (pairs (2 ^ 19)).length < 2 ^ 32 ∧ ¬ RoundTrips (pairs (2 ^ 19)) := by
  have hlen : (pairs (2 ^ 19)).length < 2 ^ 32 := by
    rw [length_pairs, chunkLen]
    omega
  have hbytes := le_runValuesBytes (p := 2 ^ 19) le_rfl
  refine ⟨hlen, fun htrips => ?_⟩
  have hchoose := choose_pairs (p := 2 ^ 19) le_rfl (by omega)
  rw [roundTrips_iff_trips, shipped_of_choose_rle hlen hchoose, trips_rle_iff hlen] at htrips
  omega

end Zu.Encoding
