import Zu.Lib.Checked
import Zu.Lib.Chunks
import Zu.Lib.Bytes
import Zu.Lib.Fallible
import Zu.Common.Error

/-!
# The tombstone chain

The rows a checkpoint leaves deleted are kept as a version, a count, and the offsets
ascending. What is accepted is exactly what the encoder writes. The length is compared
with a product of the stored count, and that product is where the decoder can leave the
arithmetic of a word.
-/

namespace Zu.Txn

open Lib

/-- A slice of bytes: no allocation is longer than `isize::MAX`. -/
abbrev Slice := { bs : Bytes // bs.length < 2 ^ 63 }

def tombstonesVersion : ℕ := 1

def tombstoneCorrupt (detail : String) : ZuError := .corrupt "tombstone chain" detail

def encodeTombstones (offsets : List UInt64) : Bytes :=
  leBytes 2 tombstonesVersion ++ (leBytes 8 offsets.length ++
    offsets.flatMap fun offset => leBytes 8 offset.toNat)

/-- The offsets after the last one read, each above the one before it. -/
def readOffsets : Option UInt64 → List Bytes → Checked ZuError (List UInt64)
  | _, [] => .ok []
  | last, raw :: rest =>
      let offset := UInt64.ofNat (fromLe raw)
      if ∃ l ∈ last, offset ≤ l then
        .error (.refused (tombstoneCorrupt s!"offset {offset} after {last.getD 0}"))
      else do
        let offsets ← readOffsets (some offset) rest
        return offset :: offsets

/-- The count a chain claims. -/
def storedCount (bytes : Bytes) : ℕ := fromLe ((bytes.drop 2).take 8)

/-- What follows the header of a chain. -/
def decodeBody (checks : Bool) (bytes : Bytes) : Checked ZuError (List UInt64) := do
  let size ← Checked.word checks (storedCount bytes * 8)
  let length ← Checked.word checks (10 + size)
  if bytes.length ≠ length then
    Checked.refuse (tombstoneCorrupt s!"{bytes.length} bytes hold {storedCount bytes} offsets")
  else do
    Checked.withCapacity (storedCount bytes) 8
    readOffsets none (asChunks 8 (bytes.drop 10))

/-- `decode_tombstones`, in a build with overflow checks or without. -/
def decodeTombstones (checks : Bool) (bytes : Bytes) : Checked ZuError (List UInt64) :=
  if bytes.length < 10 then Checked.refuse (tombstoneCorrupt "truncated header")
  else if fromLe (bytes.take 2) ≠ tombstonesVersion then
    Checked.refuse (.unsupported "tombstone chain version" (fromLe (bytes.take 2)))
  else decodeBody checks bytes

/-! ### What is accepted -/

theorem length_encodeTombstones (offsets : List UInt64) :
    (encodeTombstones offsets).length = 10 + 8 * offsets.length := by
  simp [encodeTombstones, List.length_flatMap, Nat.mul_comm]
  ring

theorem calm_readOffsets (last : Option UInt64) (raws : List Bytes) :
    Checked.Calm (readOffsets last raws) := by
  induction raws generalizing last with
  | nil => exact Checked.calm_ok _
  | cons raw rest ih =>
      rw [readOffsets]
      split
      · exact Checked.calm_refused _
      · exact (ih _).bind fun offsets _ => Checked.calm_ok _

/-- Offsets are read off words exactly when they ascend, from above the last one on. -/
theorem readOffsets_ok {last : Option UInt64} {raws : List Bytes} {offsets : List UInt64}
    (hlen : ∀ raw ∈ raws, raw.length = 8) :
    readOffsets last raws = .ok offsets ↔
      raws = offsets.map (fun offset => leBytes 8 offset.toNat) ∧
        (∀ l ∈ last, ∀ x ∈ offsets, l < x) ∧ offsets.Pairwise (· < ·) := by
  induction raws generalizing last offsets with
  | nil =>
      constructor
      · intro h
        cases h
        simp
      · rintro ⟨h, -⟩
        rw [List.map_eq_nil_iff.1 h.symm]
        rfl
  | cons raw rest ih =>
      have hrest : ∀ r ∈ rest, r.length = 8 := fun r hr => hlen r (List.mem_cons_of_mem raw hr)
      have hword : leBytes 8 (UInt64.ofNat (fromLe raw)).toNat = raw := by
        have hlt := fromLe_lt raw
        rw [hlen raw List.mem_cons_self] at hlt
        rw [UInt64.toNat_ofNat', Nat.mod_eq_of_lt (by simpa using hlt)]
        exact leBytes_fromLe_of_length (hlen raw List.mem_cons_self)
      rw [readOffsets]
      split
      case isTrue hlow =>
        obtain ⟨l, hl, hle⟩ := hlow
        constructor
        · exact fun h => nomatch h
        · rintro ⟨hraws, habove, -⟩
          cases offsets with
          | nil => exact nomatch hraws
          | cons x xs =>
              have hx : UInt64.ofNat (fromLe raw) = x := by
                rw [List.map_cons, List.cons_eq_cons] at hraws
                rw [hraws.1, fromLe_leBytes_of_lt (by simpa using x.toNat_lt)]
                exact UInt64.ofNat_toNat
              have hlt := habove l hl x List.mem_cons_self
              rw [hx] at hle
              exact absurd hlt (UInt64.not_lt.2 hle)
      case isFalse hhigh =>
        have hhigh' : ∀ l ∈ last, l < UInt64.ofNat (fromLe raw) :=
          fun l hl => UInt64.not_le.1 fun hle => hhigh ⟨l, hl, hle⟩
        rw [except_bind_ok]
        constructor
        · rintro ⟨xs, hxs, hout⟩
          cases hout
          obtain ⟨hraws, habove, hsorted⟩ := (ih hrest).1 hxs
          have hoffset := habove _ rfl
          refine ⟨?_, ?_, List.pairwise_cons.2 ⟨hoffset, hsorted⟩⟩
          · rw [List.map_cons, hword, ← hraws]
          · intro l hl x hx
            cases List.mem_cons.1 hx with
            | inl hx => exact hx ▸ hhigh' l hl
            | inr hx => exact UInt64.lt_trans (hhigh' l hl) (hoffset x hx)
        · rintro ⟨hraws, -, hsorted⟩
          cases offsets with
          | nil => exact nomatch hraws
          | cons x xs =>
              rw [List.map_cons, List.cons_eq_cons] at hraws
              obtain ⟨hx, hxs⟩ := List.pairwise_cons.1 hsorted
              have hoffset : UInt64.ofNat (fromLe raw) = x := by
                rw [hraws.1, fromLe_leBytes_of_lt (by simpa using x.toNat_lt)]
                exact UInt64.ofNat_toNat
              refine ⟨xs, (ih hrest).2 ⟨hraws.2, ?_, hxs⟩, by rw [hoffset]; rfl⟩
              intro l hl y hy
              cases hl
              rw [hoffset]
              exact hx y hy

/-- A chain whose header is not refused. -/
def Headed (bytes : Bytes) : Prop :=
  10 ≤ bytes.length ∧ fromLe (bytes.take 2) = tombstonesVersion

theorem decodeTombstones_of_headed {checks : Bool} {bytes : Bytes} (h : Headed bytes) :
    decodeTombstones checks bytes = decodeBody checks bytes := by
  rw [decodeTombstones, if_neg (not_lt.2 h.1), if_neg (not_not.2 h.2)]

theorem decodeTombstones_of_not_headed (checks : Bool) {bytes : Bytes} (h : ¬ Headed bytes) :
    ∃ e, decodeTombstones checks bytes = .error (.refused e) := by
  rw [decodeTombstones]
  split
  case isTrue => exact ⟨_, rfl⟩
  case isFalse hlen =>
    rw [if_pos fun hv => h ⟨not_lt.1 hlen, hv⟩]
    exact ⟨_, rfl⟩

/-- A count whose sizes stay in a word is compared as it is. -/
theorem decodeBody_of_small {checks : Bool} {bytes : Bytes}
    (h : storedCount bytes + 1 < 2 ^ 61) :
    decodeBody checks bytes =
      if bytes.length ≠ 10 + storedCount bytes * 8 then
        Checked.refuse
          (tombstoneCorrupt s!"{bytes.length} bytes hold {storedCount bytes} offsets")
      else Checked.withCapacity (storedCount bytes) 8 >>= fun _ =>
        readOffsets none (asChunks 8 (bytes.drop 10)) := by
  rw [decodeBody, Checked.word_of_lt (by omega), ok_bind, Checked.word_of_lt (by omega), ok_bind]

/-- A count whose sizes do not is a panic in a build that checks. -/
theorem decodeBody_of_large {bytes : Bytes} (h : 2 ^ 61 ≤ storedCount bytes + 1) :
    decodeBody true bytes = .error .panicked := by
  by_contra hcalm
  have hbody : Checked.Calm (decodeBody true bytes) := hcalm
  rw [decodeBody, Checked.calm_bind_iff] at hbody
  have hsize := Checked.calm_word_iff.1 hbody.1
  have hrest := hbody.2 _ (Checked.word_of_lt hsize)
  rw [Checked.calm_bind_iff] at hrest
  have hlength := Checked.calm_word_iff.1 hrest.1
  omega

/-- Room for such a count cannot be had. -/
theorem decodeBody_large_not_ok {checks : Bool} {bytes : Bytes}
    (h : 2 ^ 61 ≤ storedCount bytes + 1) (offsets : List UInt64) :
    decodeBody checks bytes ≠ .ok offsets := by
  intro hok
  rw [decodeBody, except_bind_ok] at hok
  obtain ⟨size, -, hok⟩ := hok
  rw [except_bind_ok] at hok
  obtain ⟨total, -, hok⟩ := hok
  split at hok
  · exact nomatch hok
  · rw [Checked.withCapacity_of_le (by omega)] at hok
    exact nomatch hok

theorem headed_encodeTombstones (offsets : List UInt64) : Headed (encodeTombstones offsets) := by
  constructor
  · rw [length_encodeTombstones]
    exact Nat.le_add_right 10 _
  · rw [encodeTombstones, List.take_left' (length_leBytes 2 _)]
    rfl

theorem storedCount_encodeTombstones {offsets : List UInt64} (h : offsets.length < 2 ^ 64) :
    storedCount (encodeTombstones offsets) = offsets.length := by
  rw [storedCount, encodeTombstones, List.drop_left' (length_leBytes 2 _),
    List.take_left' (length_leBytes 8 _)]
  exact fromLe_leBytes_of_lt (by simpa using h)

theorem drop_encodeTombstones (offsets : List UInt64) :
    (encodeTombstones offsets).drop 10 = offsets.flatMap fun offset => leBytes 8 offset.toNat := by
  rw [encodeTombstones, ← List.append_assoc]
  exact List.drop_left' (by simp)

/-- A chain is accepted exactly when it is the encoding of offsets that ascend, which are
then what is returned. -/
theorem decodeTombstones_ok (checks : Bool) (bytes : Slice) (offsets : List UInt64) :
    decodeTombstones checks bytes.1 = .ok offsets ↔
      offsets.Pairwise (· < ·) ∧ bytes.1 = encodeTombstones offsets := by
  constructor
  · intro hok
    by_cases hhead : Headed bytes.1
    case neg =>
      obtain ⟨e, he⟩ := decodeTombstones_of_not_headed checks hhead
      exact nomatch he.symm.trans hok
    rw [decodeTombstones_of_headed hhead] at hok
    have hsmall : storedCount bytes.1 + 1 < 2 ^ 61 :=
      not_le.1 fun h => decodeBody_large_not_ok h offsets hok
    rw [decodeBody_of_small hsmall] at hok
    split at hok
    case isTrue => exact nomatch hok
    case isFalse hlen =>
      have hlen := not_not.1 hlen
      have hroom : storedCount bytes.1 * 8 < 2 ^ 63 := by
        have := bytes.2
        omega
      rw [Checked.withCapacity_of_lt hroom, ok_bind,
        readOffsets_ok fun raw hraw => length_of_mem_asChunks (by decide) hraw] at hok
      obtain ⟨hraws, -, hsorted⟩ := hok
      refine ⟨hsorted, ?_⟩
      have hbody : (bytes.1.drop 10).length = 8 * storedCount bytes.1 := by
        rw [List.length_drop]
        omega
      have hdvd : 8 ∣ (bytes.1.drop 10).length := ⟨_, hbody⟩
      have hdrop : bytes.1.drop 10 = offsets.flatMap fun offset => leBytes 8 offset.toNat := by
        rw [← flatten_chunks (n := 8) (by decide) (bytes.1.drop 10), ← asChunks_of_dvd hdvd, hraws,
          List.flatMap_def]
      have hcount : offsets.length = storedCount bytes.1 := by
        have hsame := congrArg List.length hdrop
        rw [hbody, List.length_flatMap] at hsame
        simp at hsame
        omega
      have hhead2 : bytes.1.take 2 = leBytes 2 tombstonesVersion := by
        rw [← hhead.2]
        exact (leBytes_fromLe_of_length (by rw [List.length_take]; have := hhead.1; omega)).symm
      have hhead8 : (bytes.1.drop 2).take 8 = leBytes 8 offsets.length := by
        rw [hcount]
        refine (leBytes_fromLe_of_length ?_).symm
        rw [List.length_take, List.length_drop]
        have := hhead.1
        omega
      rw [encodeTombstones, ← hdrop, ← hhead2, ← hhead8]
      have hsplit : bytes.1.drop 10 = (bytes.1.drop 2).drop 8 := by rw [List.drop_drop]
      rw [hsplit, List.take_append_drop, List.take_append_drop]
  · rintro ⟨hsorted, hbytes⟩
    have hlen := length_encodeTombstones offsets
    have hslice := bytes.2
    rw [hbytes, hlen] at hslice
    have hcount : storedCount (encodeTombstones offsets) = offsets.length :=
      storedCount_encodeTombstones (by omega)
    rw [hbytes, decodeTombstones_of_headed (headed_encodeTombstones offsets),
      decodeBody_of_small (by omega), hcount, if_neg (by omega),
      Checked.withCapacity_of_lt (show offsets.length * 8 < 2 ^ 63 by omega), ok_bind,
      drop_encodeTombstones,
      asChunks_flatMap (by decide) fun _ _ => length_leBytes 8 _, readOffsets_ok (by simp)]
    exact ⟨rfl, fun l hl => (nomatch hl), hsorted⟩

/-! ### What the arithmetic does -/

/-- Acceptance is exact, and nothing panics: in a build with overflow checks, that is
what arithmetic that wraps would do. -/
def ExactTombstones (bytes : Slice) : Prop :=
  (∀ (checks : Bool) (offsets : List UInt64), decodeTombstones checks bytes.1 = .ok offsets ↔
      offsets.Pairwise (· < ·) ∧ bytes.1 = encodeTombstones offsets) ∧
    ∀ checks : Bool, Checked.Calm (decodeTombstones checks bytes.1)

theorem calm_decodeTombstones {checks : Bool} {bytes : Slice}
    (h : Headed bytes.1 → storedCount bytes.1 + 1 < 2 ^ 61) :
    Checked.Calm (decodeTombstones checks bytes.1) := by
  by_cases hhead : Headed bytes.1
  · rw [decodeTombstones_of_headed hhead, decodeBody_of_small (h hhead)]
    split
    case isTrue => exact Checked.calm_refuse _
    case isFalse hlen =>
      have hslice := bytes.2
      rw [Checked.withCapacity_of_lt (show storedCount bytes.1 * 8 < 2 ^ 63 by omega), ok_bind]
      exact calm_readOffsets none _
  · obtain ⟨e, he⟩ := decodeTombstones_of_not_headed checks hhead
    rw [he]
    exact Checked.calm_refused e

/-- The decoder is exact when no header gets through whose count, in bytes and with the
header's ten, is more than a word holds. -/
theorem exactTombstones_iff (bytes : Slice) :
    ExactTombstones bytes ↔ (Headed bytes.1 → storedCount bytes.1 + 1 < 2 ^ 61) := by
  constructor
  · intro h hhead
    by_contra hlarge
    have hcalm := h.2 true
    rw [decodeTombstones_of_headed hhead, decodeBody_of_large (not_lt.1 hlarge)] at hcalm
    exact Checked.not_calm_panicked hcalm
  · exact fun h => ⟨fun checks offsets => decodeTombstones_ok checks bytes offsets,
      fun checks => calm_decodeTombstones h⟩

/-- A header alone, whose count takes 2⁶⁴ bytes. -/
def hostileChain : Slice := ⟨leBytes 2 1 ++ leBytes 8 (2 ^ 61), by decide⟩

/-- Its length is taken for the right one where the product wraps, and room is asked for
that cannot be had. -/
theorem hostileChain_panics (checks : Bool) :
    decodeTombstones checks hostileChain.1 = .error .panicked := by
  cases checks <;> rfl

theorem hostileChain_not_exact : ¬ ∀ bytes, ExactTombstones bytes := fun h =>
  (h hostileChain).2 false (hostileChain_panics false)

end Zu.Txn
