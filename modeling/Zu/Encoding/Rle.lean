import Zu.Encoding.ForBitpack

/-!
# Runs

The values of the runs and their lengths, each in a frame of reference. The decoder
pulls the chunks of both in lockstep, and holds the total of the lengths to the
ceiling of its caller before it appends a run.
-/

namespace Zu.Encoding

open Lib ForBitpack

variable {σ : Type}

/-- Pulls the chunks of two containers in lockstep and hands `push` the pairs they
hold; a chunk is never empty, so what the first has left bounds the chunks there
are. -/
def lockstep (early : ZuError) (push : σ → List (Word × Word) → Except ZuError σ) :
    ℕ → ChunkCursor → ChunkCursor → σ → Except ZuError σ
  | 0, _, _, s => .ok s
  | fuel + 1, first, second, s => do
      match ← first.next with
      | (none, _) => return s
      | (some (min, scratch, take), first) =>
          match ← second.next with
          | (none, _) => throw early
          | (some (min', scratch', take'), second) => do
              let s ← push s (((scratch.take (Nat.min take take')).zip scratch').map
                fun p => (min + p.1, min' + p.2))
              lockstep early push fuel first second s

attribute [grind =] lockstep

namespace Rle

/-- The runs of values that go on from a run of `len` values `cur`. -/
def runsFrom (cur : Word) (len : ℕ) : List Word → List (Word × ℕ)
  | [] => [(cur, len)]
  | v :: values =>
      if v = cur then runsFrom cur (len + 1) values else (cur, len) :: runsFrom v 1 values

def runs : List Word → List (Word × ℕ)
  | [] => []
  | v :: values => runsFrom v 1 values

def valuesBuf (values : List Word) : Bytes := ForBitpack.encode ((runs values).map Prod.fst)

def lengthsBuf (values : List Word) : Bytes :=
  ForBitpack.encode ((runs values).map fun r => BitVec.ofNat 64 r.2)

/-- `rle::encode`. Its header has four bytes for how long the first container is. -/
def encode (values : List Word) : Bytes :=
  leBytes 4 (runs values).length ++
    (leBytes 4 (valuesBuf values).length ++ (valuesBuf values ++ lengthsBuf values))

/-- Appends runs while their total is within the ceiling. -/
def pushRuns (maxValues : ℕ) (s : ℕ × List Word) : List (Word × Word) →
    Except ZuError (ℕ × List Word)
  | [] => .ok s
  | (v, len) :: runs =>
      let total := s.1 + len.toNat
      if 2 ^ 64 ≤ total then .error (.corrupt "rle" "total length overflow")
      else if maxValues < total then
        .error (.corrupt "rle" s!"claims {total} values, caller allows {maxValues}")
      else pushRuns maxValues (total, s.2 ++ List.replicate len.toNat v) runs

attribute [grind =] pushRuns

/-- `rle::decode`: the values it appends to `out`. -/
def decode (bytes : Bytes) (maxValues : ℕ) : Except ZuError (List Word) := do
  if bytes.length < 8 then throw (.corrupt "rle" "truncated header")
  let runCount := fromLe (bytes.take 4)
  let valuesLen := fromLe ((bytes.drop 4).take 4)
  if maxValues < runCount then
    throw (.corrupt "rle" s!"claims {runCount} runs, caller allows {maxValues} values")
  if bytes.length < 8 + valuesLen then throw (.corrupt "rle" "truncated values")
  let values ← ChunkCursor.new ((bytes.drop 8).take valuesLen) runCount
  let lengths ← ChunkCursor.new (bytes.drop (8 + valuesLen)) runCount
  if values.count ≠ runCount ∨ lengths.count ≠ runCount then
    throw (.corrupt "rle" "stream length mismatch")
  let (_, out) ← lockstep (.corrupt "rle" "length stream ended early") (pushRuns maxValues)
    values.remaining values lengths (0, [])
  return out

end Rle

/-! ### Lockstep -/

section

variable {early : ZuError} {push : σ → List (Word × Word) → Except ZuError σ}

theorem zip_chunkRead {a b : List Word} (ha : a.length ≤ chunkLen) (hb : b.length ≤ chunkLen)
    (hlen : a.length = b.length) :
    (((chunkRead a).2.1.take (Nat.min (chunkRead a).2.2 (chunkRead b).2.2)).zip
      (chunkRead b).2.1).map (fun p => ((chunkRead a).1 + p.1, (chunkRead b).1 + p.2)) =
        a.zip b := by
  have hmin : Nat.min (chunkRead a).2.2 (chunkRead b).2.2 = (chunkRead a).2.2 := by
    change min a.length b.length = a.length
    rw [hlen, Nat.min_self]
  have hback := map_chunkRead hb
  have hunpacked : ((chunkRead a).2.1.take (chunkRead a).2.2).length = a.length := by
    have hmap := congrArg List.length (map_chunkRead ha)
    rwa [List.length_map] at hmap
  have hzip : ((chunkRead a).2.1.take (chunkRead a).2.2).zip (chunkRead b).2.1 =
      ((chunkRead a).2.1.take (chunkRead a).2.2).zip
        ((chunkRead b).2.1.take (chunkRead b).2.2) := by
    rw [List.zip_eq_zip_take_min, hunpacked]
    have hlong : b.length ≤ (chunkRead b).2.1.length := by
      change b.length ≤ (unpack _ _).length
      rw [length_unpack]
      exact hb
    have hmin' : min a.length (chunkRead b).2.1.length = (chunkRead b).2.2 := by
      change min a.length _ = b.length
      rw [hlen]
      exact Nat.min_eq_left hlong
    rw [hmin', List.take_of_length_le (by rw [hunpacked, hlen]; exact le_rfl)]
  rw [hmin, hzip]
  calc _ = (((chunkRead a).2.1.take (chunkRead a).2.2).map fun v => (chunkRead a).1 + v).zip
        (((chunkRead b).2.1.take (chunkRead b).2.2).map fun v => (chunkRead b).1 + v) := by
          rw [List.zip_map]
          rfl
    _ = a.zip b := by rw [map_chunkRead ha, hback]

/-- Two containers of as many values hand over the pairs of them. -/
theorem lockstep_cursorAt (hnil : ∀ s, push s [] = .ok s)
    (happend : ∀ s ps qs, push s (ps ++ qs) = push s ps >>= fun s => push s qs)
    (count count' : ℕ) {as bs : List Word} (hlen : as.length = bs.length) (rest rest' : Bytes)
    {fuel : ℕ} (hfuel : as.length ≤ fuel) (s : σ) :
    lockstep early push fuel (cursorAt count as rest) (cursorAt count' bs rest') s =
      push s (as.zip bs) := by
  induction as using chunks_induction (n := chunkLen) (by decide) generalizing bs fuel s with
  | nil =>
      rw [List.zip_nil_left, hnil]
      cases fuel <;> rfl
  | step as hne ih =>
      have hpos := List.length_pos_of_ne_nil hne
      have hneb : bs ≠ [] := by
        rintro rfl
        rw [hlen] at hpos
        exact Nat.not_lt_zero 0 hpos
      cases fuel with
      | zero => exact absurd hpos (not_lt.2 hfuel)
      | succ fuel =>
          have hdrop : (as.drop chunkLen).length ≤ fuel := by
            rw [List.length_drop, chunkLen]
            omega
          have hdroplen : (as.drop chunkLen).length = (bs.drop chunkLen).length := by
            rw [List.length_drop, List.length_drop, hlen]
          have htakelen : (as.take chunkLen).length = (bs.take chunkLen).length := by
            rw [List.length_take, List.length_take, hlen]
          have hsplit : as.zip bs = (as.take chunkLen).zip (bs.take chunkLen) ++
              (as.drop chunkLen).zip (bs.drop chunkLen) := by
            rw [← List.zip_append htakelen, List.take_append_drop, List.take_append_drop]
          rw [lockstep, next_cursorAt count hne, ok_bind]
          simp only
          rw [next_cursorAt count' hneb, ok_bind]
          simp only
          rw [zip_chunkRead (List.length_take_le _ _) (List.length_take_le _ _) htakelen, hsplit,
            happend]
          congr 1
          funext s
          exact ih hdroplen hdrop s

/-- A first container cut short is refused, whatever the second one is. -/
theorem lockstep_short (count : ℕ) {as : List Word} {k : ℕ} (hk : k < (body as).length)
    (second : ChunkCursor) {fuel : ℕ} (hfuel : as.length ≤ fuel) (s : σ) :
    ∃ e, lockstep early push fuel
      { bytes := (body as).take k, remaining := as.length, count } second s = .error e := by
  induction as using chunks_induction (n := chunkLen) (by decide)
    generalizing k fuel s second with
  | nil => exact absurd hk (Nat.not_lt_zero k)
  | step as hne ih =>
      have hpos := List.length_pos_of_ne_nil hne
      cases fuel with
      | zero => exact absurd hpos (not_lt.2 hfuel)
      | succ fuel =>
          have hdrop : (as.drop chunkLen).length ≤ fuel := by
            rw [List.length_drop, chunkLen]
            omega
          cases next_short count hk with
          | inl hshort =>
              obtain ⟨e, he⟩ := hshort
              exact ⟨e, by rw [lockstep, he]; rfl⟩
          | inr hgoes =>
              obtain ⟨-, k', hk', hnext⟩ := hgoes
              rw [lockstep, hnext, ok_bind]
              simp only
              cases hsecond : second.next with
              | error e => exact ⟨e, rfl⟩
              | ok out =>
                  obtain ⟨chunk, second'⟩ := out
                  rw [ok_bind]
                  cases chunk with
                  | none => exact ⟨early, rfl⟩
                  | some chunk =>
                      obtain ⟨min', scratch', take'⟩ := chunk
                      simp only
                      generalize push s _ = pushed
                      cases pushed with
                      | error e => exact ⟨e, rfl⟩
                      | ok s' => exact ih hk' second' hdrop s'

end

namespace Rle

/-! ### Runs and what they stand for -/

/-- What runs stand for. -/
def expand (rs : List (Word × ℕ)) : List Word := rs.flatMap fun r => List.replicate r.2 r.1

theorem expand_runsFrom (cur : Word) (len : ℕ) (values : List Word) :
    expand (runsFrom cur len values) = List.replicate len cur ++ values := by
  induction values generalizing cur len with
  | nil => rw [runsFrom, expand, List.flatMap_singleton, List.append_nil]
  | cons v values ih =>
      rw [runsFrom]
      split
      · rename_i hv
        rw [ih, List.replicate_succ', List.append_assoc, hv]
        rfl
      · rw [expand, List.flatMap_cons]
        change List.replicate len cur ++ expand (runsFrom v 1 values) = _
        rw [ih]
        rfl

theorem expand_runs (values : List Word) : expand (runs values) = values := by
  cases values with
  | nil => rfl
  | cons v values => exact expand_runsFrom v 1 values

theorem length_expand (rs : List (Word × ℕ)) : (expand rs).length = (rs.map Prod.snd).sum := by
  induction rs with
  | nil => rfl
  | cons r rs ih =>
      rw [expand, List.flatMap_cons, List.length_append, List.length_replicate, List.map_cons,
        List.sum_cons, ← ih]
      rfl

theorem sum_runs (values : List Word) : ((runs values).map Prod.snd).sum = values.length := by
  rw [← length_expand, expand_runs]

theorem runsFrom_pos (cur : Word) {len : ℕ} (hlen : 0 < len) (values : List Word) :
    ∀ r ∈ runsFrom cur len values, 0 < r.2 := by
  induction values generalizing cur len with
  | nil =>
      intro r hr
      rw [runsFrom, List.mem_singleton] at hr
      rw [hr]
      exact hlen
  | cons v values ih =>
      intro r hr
      rw [runsFrom] at hr
      split at hr
      · exact ih cur (Nat.succ_pos len) r hr
      · cases List.mem_cons.1 hr with
        | inl hr =>
            rw [hr]
            exact hlen
        | inr hr => exact ih v Nat.one_pos r hr

theorem runs_pos (values : List Word) : ∀ r ∈ runs values, 0 < r.2 := by
  cases values with
  | nil => exact fun r hr => absurd hr List.not_mem_nil
  | cons v values => exact runsFrom_pos v Nat.one_pos values

theorem length_runs_le (values : List Word) : (runs values).length ≤ values.length := by
  rw [← sum_runs values, ← List.length_map Prod.snd]
  apply List.length_le_sum_of_one_le
  intro n hn
  obtain ⟨r, hr, rfl⟩ := List.mem_map.1 hn
  exact runs_pos values r hr

theorem le_of_mem_runs {values : List Word} {r : Word × ℕ} (hr : r ∈ runs values) :
    r.2 ≤ values.length := by
  rw [← sum_runs values]
  exact List.le_sum_of_mem (List.mem_map_of_mem hr)

/-! ### Appending runs -/

section

variable (maxValues : ℕ)

theorem pushRuns_append (s : ℕ × List Word) (ps qs : List (Word × Word)) :
    pushRuns maxValues s (ps ++ qs) =
      pushRuns maxValues s ps >>= fun s => pushRuns maxValues s qs := by
  induction ps generalizing s with
  | nil => rfl
  | cons p ps ih =>
      rw [List.cons_append, pushRuns, pushRuns]
      split
      · rfl
      · split
        · rfl
        · exact ih _

theorem pushRuns_ok {ps : List (Word × Word)} {s : ℕ × List Word}
    (hmax : s.1 + (ps.map fun p => p.2.toNat).sum ≤ maxValues)
    (hbound : s.1 + (ps.map fun p => p.2.toNat).sum < 2 ^ 64) :
    pushRuns maxValues s ps = .ok (s.1 + (ps.map fun p => p.2.toNat).sum,
      s.2 ++ ps.flatMap fun p => List.replicate p.2.toNat p.1) := by
  induction ps generalizing s with
  | nil =>
      rw [pushRuns, List.map_nil, List.sum_nil, List.flatMap_nil, List.append_nil]
      rfl
  | cons p ps ih =>
      rw [List.map_cons, List.sum_cons, ← Nat.add_assoc] at hmax hbound
      rw [pushRuns]
      rw [if_neg (by omega), if_neg (by omega), ih hmax hbound, List.map_cons, List.sum_cons,
        List.flatMap_cons, Nat.add_assoc, List.append_assoc]

theorem pushRuns_over {ps : List (Word × Word)} {s : ℕ × List Word} (hs : s.1 ≤ maxValues)
    (hover : maxValues < s.1 + (ps.map fun p => p.2.toNat).sum) :
    ∃ e, pushRuns maxValues s ps = .error e := by
  induction ps generalizing s with
  | nil =>
      rw [List.map_nil, List.sum_nil] at hover
      omega
  | cons p ps ih =>
      rw [List.map_cons, List.sum_cons, ← Nat.add_assoc] at hover
      rw [pushRuns]
      split
      · exact ⟨_, rfl⟩
      · split
        · exact ⟨_, rfl⟩
        · rename_i hle
          exact ih (not_lt.1 hle) hover

end

/-! ### Reading back what was written -/

section

variable {values : List Word}

/-- The runs as the decoder pairs them. -/
def pairs (values : List Word) : List (Word × Word) :=
  ((runs values).map Prod.fst).zip ((runs values).map fun r => BitVec.ofNat 64 r.2)

theorem pairs_eq (values : List Word) :
    pairs values = (runs values).map fun r => (r.1, BitVec.ofNat 64 r.2) := by
  rw [pairs, List.zip_map']

theorem length_header (values : List Word) : 8 ≤ (encode values).length := by
  rw [encode, List.length_append, List.length_append, length_leBytes, length_leBytes]
  omega

theorem take_header (values : List Word) :
    (encode values).take 4 = leBytes 4 (runs values).length := by
  rw [encode, List.take_left' (length_leBytes 4 _)]

theorem drop_header (values : List Word) :
    ((encode values).drop 4).take 4 = leBytes 4 (valuesBuf values).length := by
  rw [encode, List.drop_left' (length_leBytes 4 _), List.take_left' (length_leBytes 4 _)]

theorem drop_eight (values : List Word) :
    (encode values).drop 8 = valuesBuf values ++ lengthsBuf values := by
  rw [encode, ← List.append_assoc, List.drop_left' (by simp)]

variable (h : values.length < 2 ^ 32)

include h

theorem runCount_lt : (runs values).length < 2 ^ 32 := (length_runs_le values).trans_lt h

theorem toNat_pairs : (pairs values).map (fun p => p.2.toNat) = (runs values).map Prod.snd := by
  rw [pairs_eq, List.map_map]
  apply List.map_congr_left
  intro r hr
  have hle := le_of_mem_runs hr
  rw [Function.comp_apply, BitVec.toNat_ofNat, Nat.mod_eq_of_lt (by omega)]

theorem sum_pairs : ((pairs values).map fun p => p.2.toNat).sum = values.length := by
  rw [toNat_pairs h, sum_runs]

theorem expand_pairs :
    ((pairs values).flatMap fun p => List.replicate p.2.toNat p.1) = values := by
  conv_rhs => rw [← expand_runs values]
  rw [pairs_eq, expand, List.flatMap_map]
  apply List.flatMap_congr
  intro r hr
  have hle := le_of_mem_runs hr
  rw [BitVec.toNat_ofNat, Nat.mod_eq_of_lt (by omega)]

theorem decode_encode_eq (maxValues : ℕ) : decode (encode values) maxValues =
    if maxValues < (runs values).length then .error (.corrupt "rle"
      s!"claims {(runs values).length} runs, caller allows {maxValues} values")
    else if (encode values).length < 8 + (valuesBuf values).length % 2 ^ 32 then
      .error (.corrupt "rle" "truncated values")
    else do
      let first ← ChunkCursor.new
        ((valuesBuf values ++ lengthsBuf values).take ((valuesBuf values).length % 2 ^ 32))
        (runs values).length
      let second ← ChunkCursor.new
        ((encode values).drop (8 + (valuesBuf values).length % 2 ^ 32)) (runs values).length
      if first.count ≠ (runs values).length ∨ second.count ≠ (runs values).length then
        .error (.corrupt "rle" "stream length mismatch")
      else do
        let s ← lockstep (.corrupt "rle" "length stream ended early") (pushRuns maxValues)
          first.remaining first second (0, [])
        return s.2 := by
  have hcount : fromLe ((encode values).take 4) = (runs values).length := by
    rw [take_header, fromLe_leBytes_of_lt (runCount_lt h)]
  have hlen : fromLe (((encode values).drop 4).take 4) = (valuesBuf values).length % 2 ^ 32 := by
    rw [drop_header, fromLe_leBytes]
    rfl
  rw [decode, if_neg (not_lt.2 (length_header values))]
  simp only [hcount, hlen, drop_eight]
  split
  · rfl
  · split
    · rfl
    · congr 1

/-- When the length of the first container fits its header, the runs are appended. -/
theorem decode_encode_fits (hfits : (valuesBuf values).length < 2 ^ 32) {maxValues : ℕ}
    (hmax : (runs values).length ≤ maxValues) : decode (encode values) maxValues =
      pushRuns maxValues (0, []) (pairs values) >>= fun s => Pure.pure s.2 := by
  have hmod : (valuesBuf values).length % 2 ^ 32 = (valuesBuf values).length :=
    Nat.mod_eq_of_lt hfits
  have hruns := runCount_lt h
  have htotal : (encode values).length =
      8 + (valuesBuf values).length + (lengthsBuf values).length := by
    rw [← List.take_append_drop 8 (encode values), drop_eight, List.length_append,
      List.length_take_of_le (length_header values), List.length_append, Nat.add_assoc]
  have hrest : (encode values).drop (8 + (valuesBuf values).length) = lengthsBuf values := by
    rw [← List.drop_drop, drop_eight, List.drop_left' rfl]
  have hfirst := @new_encode ((runs values).map Prod.fst) (by rwa [List.length_map]) []
    (runs values).length (by rw [List.length_map])
  have hsecond := @new_encode ((runs values).map fun r => BitVec.ofNat 64 r.2)
    (by rwa [List.length_map]) [] (runs values).length (by rw [List.length_map])
  rw [List.append_nil, List.length_map] at hfirst hsecond
  rw [decode_encode_eq h, hmod, if_neg (not_lt.2 hmax), if_neg (by omega), List.take_left' rfl,
    hrest, valuesBuf, hfirst, ok_bind, lengthsBuf, hsecond, ok_bind,
    if_neg (by rintro (hne | hne) <;> exact hne rfl)]
  have hpush : lockstep (.corrupt "rle" "length stream ended early") (pushRuns maxValues)
      ((runs values).map Prod.fst).length
      (cursorAt (runs values).length ((runs values).map Prod.fst) [])
      (cursorAt (runs values).length ((runs values).map fun r => BitVec.ofNat 64 r.2) [])
      (0, []) = pushRuns maxValues (0, []) (pairs values) :=
    lockstep_cursorAt (fun _ => rfl) (fun s ps qs => pushRuns_append maxValues s ps qs)
      _ _ (by rw [List.length_map, List.length_map]) [] [] le_rfl _
  change (lockstep _ _ ((runs values).map Prod.fst).length _ _ _ >>= _) = _
  rw [hpush]

/-- The values are read back, when the length of the first container fits its header. -/
theorem decode_encode (hfits : (valuesBuf values).length < 2 ^ 32) {maxValues : ℕ}
    (hmax : values.length ≤ maxValues) : decode (encode values) maxValues = .ok values := by
  have hsum := sum_pairs h
  rw [decode_encode_fits h hfits ((length_runs_le values).trans hmax),
    pushRuns_ok maxValues (by rw [hsum]; omega) (by rw [hsum]; omega), expand_pairs h]
  rfl

/-- When the length of the first container does not fit the header, nothing is read
back, whatever the ceiling is. -/
theorem decode_encode_cut (hcut : 2 ^ 32 ≤ (valuesBuf values).length) (maxValues : ℕ) :
    ∃ e, decode (encode values) maxValues = .error e := by
  have hlt : (valuesBuf values).length % 2 ^ 32 < (valuesBuf values).length :=
    (Nat.mod_lt _ (by norm_num)).trans_le hcut
  have hruns := runCount_lt h
  have hcountlt : ((runs values).map Prod.fst).length < 2 ^ 32 := by rwa [List.length_map]
  rw [decode_encode_eq h]
  split
  · exact ⟨_, rfl⟩
  · split
    · exact ⟨_, rfl⟩
    · rw [List.take_append_of_le_length hlt.le]
      generalize (valuesBuf values).length % 2 ^ 32 = k at hlt
      cases hfirst : ChunkCursor.new ((valuesBuf values).take k) (runs values).length with
      | error e => exact ⟨e, rfl⟩
      | ok first =>
          obtain ⟨hshort, hfirsteq⟩ := new_encode_short hcountlt hlt hfirst
          cases hsecond : ChunkCursor.new ((encode values).drop (8 + k)) (runs values).length with
          | error e => exact ⟨e, rfl⟩
          | ok second =>
              rw [ok_bind, ok_bind]
              split
              · exact ⟨_, rfl⟩
              · obtain ⟨e, he⟩ := @lockstep_short _ (.corrupt "rle" "length stream ended early")
                  (pushRuns maxValues) ((runs values).map Prod.fst).length _ _ hshort second _
                  le_rfl (0, [])
                refine ⟨e, ?_⟩
                rw [hfirsteq]
                change (lockstep _ _ ((runs values).map Prod.fst).length _ _ _ >>= _) = _
                rw [he]
                rfl

theorem decode_encode_over {maxValues : ℕ} (hmax : maxValues < values.length) :
    ∃ e, decode (encode values) maxValues = .error e := by
  by_cases hfits : (valuesBuf values).length < 2 ^ 32
  · by_cases hruns : (runs values).length ≤ maxValues
    · obtain ⟨e, he⟩ := @pushRuns_over maxValues (pairs values) (0, []) (Nat.zero_le maxValues)
        (by rw [sum_pairs h]; omega)
      refine ⟨e, ?_⟩
      rw [decode_encode_fits h hfits hruns, he]
      rfl
    · rw [decode_encode_eq h, if_pos (not_le.1 hruns)]
      exact ⟨_, rfl⟩
  · exact decode_encode_cut h (not_lt.1 hfits) maxValues

end

end Rle

end Zu.Encoding
