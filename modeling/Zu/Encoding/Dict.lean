import Zu.Encoding.ForBitpack
import Zu.Lib.BinarySearch

/-!
# Dictionaries

The distinct values, sorted, and the code of each row, both in frames of reference.
A dictionary holds at most 8192 entries, so that its reader can bound what it makes
room for.
-/

namespace Zu.Encoding

open Lib

/-- The order of `u64`. -/
def wordLe (a b : Word) : Bool := a.toNat ≤ b.toNat

namespace Dict

def maxEntries : ℕ := 8192

/-- `dedup`: drops what repeats the element before it. -/
def dedup : List Word → List Word
  | [] => []
  | [a] => [a]
  | a :: b :: l => if a = b then dedup (b :: l) else a :: dedup (b :: l)

def entries (values : List Word) : List Word := dedup (values.mergeSort wordLe)

def codes (dict values : List Word) : List Word :=
  values.map fun v => BitVec.ofNat 64 ((binarySearch wordLe dict v).getD 0)

/-- The container of the dictionary. -/
def dictBuf (values : List Word) : Bytes := ForBitpack.encode (entries values)

def encode (values : List Word) : Bytes :=
  leBytes 4 (dictBuf values).length ++
    (dictBuf values ++ ForBitpack.encode (codes (entries values) values))

/-- `dict::decode`: the values it appends to `out`. -/
def decode (bytes : Bytes) (maxValues : ℕ) : Except ZuError (List Word) := do
  if bytes.length < 4 then throw (.corrupt "dict" "truncated header")
  let dictLen := fromLe (bytes.take 4)
  if bytes.length < 4 + dictLen then throw (.corrupt "dict" "truncated dictionary")
  let dict ← ForBitpack.decode ((bytes.drop 4).take dictLen) (min maxEntries maxValues)
  let out ← ForBitpack.decode (bytes.drop (4 + dictLen)) maxValues
  out.mapM fun code =>
    match dict[code.toNat]? with
    | some v => pure v
    | none => throw (.corrupt "dict" "code out of range")

/-! ### Entries -/

theorem mem_dedup {l : List Word} {v : Word} : v ∈ dedup l ↔ v ∈ l := by
  induction l using dedup.induct with
  | case1 => rfl
  | case2 a => rfl
  | case3 a l ih =>
      rw [dedup, if_pos rfl, ih]
      simp
  | case4 a b l hne ih => rw [dedup, if_neg hne, List.mem_cons, ih, ← List.mem_cons]

theorem wordLe_trans (a b c : Word) (h : wordLe a b = true) (h' : wordLe b c = true) :
    wordLe a c = true := by
  rw [wordLe, decide_eq_true_eq] at h h' ⊢
  exact h.trans h'

theorem wordLe_total (a b : Word) : (wordLe a b || wordLe b a) = true := by
  rw [Bool.or_eq_true, wordLe, wordLe, decide_eq_true_eq, decide_eq_true_eq]
  exact le_total _ _

theorem wordLe_antisymm (a b : Word) (h : wordLe a b = true) (h' : wordLe b a = true) : a = b := by
  rw [wordLe, decide_eq_true_eq] at h h'
  exact BitVec.eq_of_toNat_eq (le_antisymm h h')

theorem wordLe_refl (a : Word) : wordLe a a = true := decide_eq_true le_rfl

theorem pairwise_dedup {l : List Word} (h : l.Pairwise fun a b => wordLe a b = true) :
    (dedup l).Pairwise fun a b => a.toNat < b.toNat := by
  induction l using dedup.induct with
  | case1 => exact List.Pairwise.nil
  | case2 a => exact List.pairwise_singleton _ a
  | case3 a l ih =>
      rw [dedup, if_pos rfl]
      exact ih (List.pairwise_cons.1 h).2
  | case4 a b l hne ih =>
      obtain ⟨hhead, htail⟩ := List.pairwise_cons.1 h
      rw [dedup, if_neg hne]
      refine List.pairwise_cons.2 ⟨fun x hx => ?_, ih htail⟩
      have hab := hhead b List.mem_cons_self
      have hlt : a.toNat < b.toNat := by
        rw [wordLe, decide_eq_true_eq] at hab
        exact lt_of_le_of_ne hab fun heq => hne (BitVec.eq_of_toNat_eq heq)
      have hbx : b.toNat ≤ x.toNat := by
        cases List.mem_cons.1 (mem_dedup.1 hx) with
        | inl hx => exact hx ▸ le_rfl
        | inr hx =>
            have hle := (List.pairwise_cons.1 htail).1 x hx
            rwa [wordLe, decide_eq_true_eq] at hle
      exact hlt.trans_le hbx

section

variable (values : List Word)

theorem mem_entries {v : Word} : v ∈ entries values ↔ v ∈ values := by
  rw [entries, mem_dedup, List.mem_mergeSort]

theorem sorted_entries : (entries values).Pairwise fun a b => a.toNat < b.toNat :=
  pairwise_dedup (List.pairwise_mergeSort wordLe_trans wordLe_total values)

theorem length_entries : (entries values).length = values.toFinset.card := by
  have hnodup : (entries values).Nodup :=
    (sorted_entries values).imp fun hlt heq => absurd (congrArg BitVec.toNat heq) hlt.ne
  have hset : (entries values).toFinset = values.toFinset := by
    ext v
    rw [List.mem_toFinset, List.mem_toFinset, mem_entries]
  rw [← hset, List.toFinset_card_of_nodup hnodup]

theorem length_codes (dict : List Word) : (codes dict values).length = values.length := by
  rw [codes, List.length_map]

end

theorem getElem?_code {values : List Word} {v : Word} (hv : v ∈ values)
    (hlen : (entries values).length < 2 ^ 64) :
    (entries values)[(BitVec.ofNat 64
      ((binarySearch wordLe (entries values) v).getD 0)).toNat]? = some v := by
  have hsorted : (entries values).Pairwise fun a b => wordLe a b = true :=
    (sorted_entries values).imp fun hlt => decide_eq_true hlt.le
  obtain ⟨i, hi⟩ := Option.isSome_iff_exists.1 (binarySearch_isSome wordLe_trans wordLe_antisymm
    wordLe_refl hsorted ((mem_entries values).2 hv))
  have hget := binarySearch_some hi
  obtain ⟨hlt, -⟩ := List.getElem?_eq_some_iff.1 hget
  rw [hi, Option.getD_some, BitVec.toNat_ofNat, Nat.mod_eq_of_lt (hlt.trans hlen)]
  exact hget

/-! ### Reading back what was written -/

theorem mapM_ok {α β : Type} {f : α → Except ZuError β} {g : α → β} {l : List α}
    (h : ∀ a ∈ l, f a = .ok (g a)) : l.mapM f = .ok (l.map g) := by
  induction l with
  | nil => rfl
  | cons a l ih =>
      rw [List.mapM_cons, h a List.mem_cons_self, ih fun b hb => h b (List.mem_cons_of_mem _ hb)]
      rfl

theorem length_body_le {values : List Word} :
    (ForBitpack.body values).length ≤ (chunks chunkLen values).length * (9 + 128 * 64) := by
  rw [ForBitpack.body]
  have hpart : ∀ p ∈ chunks chunkLen values, (ForBitpack.encodeChunk p).length ≤ 9 + 128 * 64 := by
    intro p hp
    have hlen : p.length ≤ chunkLen := length_le_of_mem_chunks (by decide) hp
    have hbits := bitsNeeded_le (greatest p - least p)
    have hpacked : packedBytes (bitsNeeded (greatest p - least p)) p.length ≤
        128 * bitsNeeded (greatest p - least p) := packedBytes_le hlen
    rw [ForBitpack.encodeChunk_eq, List.length_append, ForBitpack.length_chunkHeader,
      ForBitpack.length_packed]
    omega
  generalize chunks chunkLen values = parts at hpart
  induction parts with
  | nil => exact Nat.zero_le _
  | cons p parts ih =>
      have hhead := hpart p List.mem_cons_self
      have hrest := ih fun q hq => hpart q (List.mem_cons_of_mem _ hq)
      rw [List.flatMap_cons, List.length_append, List.length_cons, Nat.succ_mul]
      omega

section

variable {values : List Word} (h : values.length < 2 ^ 32)
  (hlegal : values.toFinset.card ≤ maxEntries)

include hlegal

theorem length_dictBuf_lt : (dictBuf values).length < 2 ^ 32 := by
  have hle : (entries values).length ≤ 8192 := by
    rw [length_entries]
    exact hlegal
  have hparts : (chunks chunkLen (entries values)).length ≤ 8 := by
    rw [length_chunks (by decide), chunkLen]
    omega
  have hbody : (ForBitpack.body (entries values)).length ≤ _ := length_body_le
  rw [dictBuf, ForBitpack.encode_eq, List.length_append, length_leBytes]
  have hmul := Nat.mul_le_mul_right (9 + 128 * 64) hparts
  omega

theorem decode_encode_eq (maxValues : ℕ) : decode (encode values) maxValues =
    (do
      let dict ← ForBitpack.decode (dictBuf values) (min maxEntries maxValues)
      let out ← ForBitpack.decode (ForBitpack.encode (codes (entries values) values)) maxValues
      out.mapM fun code =>
        match dict[code.toNat]? with
        | some v => pure v
        | none => throw (.corrupt "dict" "code out of range")) := by
  have hfour : ¬ (encode values).length < 4 := by
    rw [encode, List.length_append, length_leBytes]
    omega
  have hlen : fromLe ((encode values).take 4) = (dictBuf values).length := by
    rw [encode, List.take_left' (length_leBytes 4 _),
      fromLe_leBytes_of_lt (length_dictBuf_lt hlegal)]
  have hrest : (encode values).drop 4 =
      dictBuf values ++ ForBitpack.encode (codes (entries values) values) := by
    rw [encode, List.drop_left' (length_leBytes 4 _)]
  have htotal : ¬ (encode values).length < 4 + (dictBuf values).length := by
    rw [encode, List.length_append, List.length_append, length_leBytes]
    omega
  have hcodes : (encode values).drop (4 + (dictBuf values).length) =
      ForBitpack.encode (codes (entries values) values) := by
    rw [← List.drop_drop, hrest, List.drop_left' rfl]
  rw [decode, if_neg hfour]
  simp only [hlen]
  rw [if_neg htotal, hrest, List.take_left' rfl, hcodes]

include h

theorem decode_encode {maxValues : ℕ} (hmax : values.length ≤ maxValues) :
    decode (encode values) maxValues = .ok values := by
  have hentries : (entries values).length ≤ values.length := by
    rw [length_entries]
    exact List.toFinset_card_le values
  have hcap : (entries values).length ≤ min maxEntries maxValues := by
    rw [le_min_iff]
    refine ⟨?_, hentries.trans hmax⟩
    rw [length_entries]
    exact hlegal
  have hdict := ForBitpack.decode_encode (hentries.trans_lt h) [] hcap
  have hcodes := @ForBitpack.decode_encode (codes (entries values) values)
    (by rwa [length_codes]) [] maxValues (by rwa [length_codes])
  rw [List.append_nil] at hdict hcodes
  rw [decode_encode_eq hlegal, dictBuf, hdict, ok_bind, hcodes, ok_bind]
  have hmap : (codes (entries values) values).mapM (fun code =>
      match (entries values)[code.toNat]? with
      | some v => (pure v : Except ZuError Word)
      | none => throw (ZuError.corrupt "dict" "code out of range")) = .ok values := by
    rw [codes, List.mapM_map]
    refine (mapM_ok (g := id) fun v hv => ?_).trans (by rw [List.map_id])
    rw [Function.comp_apply, getElem?_code hv (by omega)]
    rfl
  exact hmap

theorem decode_encode_over {maxValues : ℕ} (hmax : maxValues < values.length) :
    ∃ e, decode (encode values) maxValues = .error e := by
  obtain ⟨e, he⟩ := @ForBitpack.decode_encode_over (codes (entries values) values)
    (by rwa [length_codes]) [] maxValues (by rwa [length_codes])
  rw [List.append_nil] at he
  rw [decode_encode_eq hlegal]
  cases ForBitpack.decode (dictBuf values) (min maxEntries maxValues) with
  | error e' => exact ⟨e', rfl⟩
  | ok dict =>
      refine ⟨e, ?_⟩
      rw [ok_bind, he]
      rfl

end

end Dict

end Zu.Encoding
