import Zu.Lib.Checked
import Zu.Lib.Parts
import Zu.Segment.Meta

/-!
# Reading a payload off its blocks

A reader pins the blocks a meta names and puts together the bytes it wants of them: the
whole payload, held against its length and its checksum, or a span of it.
-/

namespace Zu.Segment

open Lib File

/-- `pin_block`: a block is there whole, or it is an error. -/
abbrev Pin := Word → Except ZuError { block : Bytes // block.length = blockSize }

/-- What a reader gives, which may panic over what is on the disk. -/
abbrev Reads := Checked ZuError Bytes

/-- The blocks of a payload one after another, from `off` in the first of them. -/
def readBlocks (pin : Pin) (payloadLen : ℕ) : ℕ → List Word → Bytes → Reads
  | _, [], payload => .ok payload
  | off, ptr :: ptrs, payload => do
      let block ← Checked.ofExcept (pin ptr)
      let room ← Checked.sub block.1.length off
      readBlocks pin payloadLen 0 ptrs
        (payload ++ (block.1.drop off).take (min (payloadLen - payload.length) room))

/-- `read_payload`, of the layout a reader is for. -/
def readPayload (crc32c : Bytes → BitVec 32) (pin : Pin) (structural : Structural)
    (corrupt : String → ZuError) (wrong : String) (m : SegmentMeta) : Reads :=
  if m.structural ≠ structural then Checked.refuse (corrupt wrong)
  else do
    let payload ← readBlocks pin m.payloadLen.toNat m.start.toNat m.blocks []
    if payload.length ≠ m.payloadLen.toNat then
      Checked.refuse (corrupt "payload shorter than meta claims")
    else if crc32c payload ≠ m.crc then Checked.refuse (corrupt "payload crc mismatch")
    else .ok payload

def blockPart (pin : Pin) (blocks : List Word) (pos len : ℕ) : Except ZuError Bytes :=
  match blocks[pos / blockSize]? with
  | none => .error (.corrupt "segment" "span past the block list")
  | some ptr => do
      let block ← pin ptr
      .ok ((block.1.drop (pos % blockSize)).take len)

/-- The bytes from `pos` to `stop` of the blocks, one block after another. -/
def spanFrom (pin : Pin) (blocks : List Word) (pos stop : ℕ) : Except ZuError Bytes :=
  if pos < stop then do
    let len := min (stop - pos) (blockSize - pos % blockSize)
    let part ← blockPart pin blocks pos len
    let rest ← spanFrom pin blocks (pos + len) stop
    .ok (part ++ rest)
  else .ok []
termination_by stop - pos
decreasing_by
  have hlt : pos % blockSize < blockSize := Nat.mod_lt _ (Nat.succ_pos _)
  omega

def readPayloadSpan (pin : Pin) (m : SegmentMeta) (lo hi : ℕ) : Except ZuError Bytes :=
  if hi < lo ∨ m.payloadLen.toNat < hi then .error (.corrupt "segment" "span outside the payload")
  else if hi = lo then .ok []
  else
    let lo := lo + m.start.toNat
    let hi := hi + m.start.toNat
    if lo / blockSize = (hi - 1) / blockSize then blockPart pin m.blocks lo (hi - lo)
    else spanFrom pin m.blocks lo hi

/-- What the blocks hold. -/
def PinsTo (pin : Pin) : List Word → List Bytes → Prop :=
  List.Forall₂ fun ptr part => ∃ h : part.length = blockSize, pin ptr = .ok ⟨part, h⟩

theorem PinsTo.full {pin : Pin} {blocks : List Word} {parts : List Bytes} (h : PinsTo pin blocks parts) :
    ∀ part ∈ parts, part.length = blockSize := by
  induction h with
  | nil => exact fun _ hp => absurd hp List.not_mem_nil
  | cons hpart _ ih =>
      obtain ⟨hlen, -⟩ := hpart
      exact List.forall_mem_cons.2 ⟨hlen, ih⟩

theorem readBlocks_ok {pin : Pin} {payloadLen off : ℕ} {blocks : List Word} {acc payload : Bytes}
    (h : readBlocks pin payloadLen off blocks acc = .ok payload) :
    ∃ parts, PinsTo pin blocks parts ∧
      payload = acc ++ (parts.flatten.drop off).take (payloadLen - acc.length) := by
  induction blocks generalizing off acc with
  | nil =>
      refine ⟨[], List.Forall₂.nil, ?_⟩
      rw [List.flatten_nil, List.drop_nil, List.take_nil, List.append_nil]
      exact (Except.ok.inj h).symm
  | cons ptr blocks ih =>
      rw [readBlocks] at h
      obtain ⟨block, hblock, h⟩ := except_bind_ok.1 h
      obtain ⟨room, hroom, h⟩ := except_bind_ok.1 h
      obtain ⟨block, hlen⟩ := block
      have hpin : pin ptr = .ok ⟨block, hlen⟩ := by
        cases hp : pin ptr with
        | error e =>
            rw [hp] at hblock
            exact nomatch hblock
        | ok b =>
            rw [hp] at hblock
            exact congrArg Except.ok (Except.ok.inj hblock)
      rw [Checked.sub] at hroom
      split_ifs at hroom with hoff
      have hroom' : block.length - off = room := Except.ok.inj hroom
      obtain ⟨parts, hparts, hpayload⟩ := ih h
      refine ⟨block :: parts, List.Forall₂.cons ⟨hlen, hpin⟩ hparts, ?_⟩
      have htook : ((block.drop off).take (min (payloadLen - acc.length) room)).length =
          min (payloadLen - acc.length) room := by
        rw [List.length_take, List.length_drop]
        omega
      have htake : (block.drop off).take (min (payloadLen - acc.length) room) =
          (block.drop off).take (payloadLen - acc.length) := by
        rw [List.take_eq_take_iff, List.length_drop]
        omega
      have hleft : payloadLen - (acc ++ (block.drop off).take
          (min (payloadLen - acc.length) room)).length =
          payloadLen - acc.length - (block.drop off).length := by
        rw [List.length_append, htook, List.length_drop]
        omega
      rw [hpayload, hleft, htake, List.flatten_cons, List.drop_append_of_le_length hoff,
        List.take_append, List.drop_zero, List.append_assoc]

theorem readPayload_ok {crc32c : Bytes → BitVec 32} {pin : Pin} {structural : Structural}
    {corrupt : String → ZuError} {wrong : String} {m : SegmentMeta} {payload : Bytes}
    (h : readPayload crc32c pin structural corrupt wrong m = .ok payload) :
    m.structural = structural ∧ ∃ parts, PinsTo pin m.blocks parts ∧
      payload = (parts.flatten.drop m.start.toNat).take m.payloadLen.toNat ∧
      payload.length = m.payloadLen.toNat ∧ crc32c payload = m.crc := by
  rw [readPayload] at h
  split at h
  case isTrue => exact nomatch h
  case isFalse hstructural =>
    obtain ⟨whole, hblocks, h⟩ := except_bind_ok.1 h
    split at h
    case isTrue => exact nomatch h
    case isFalse hlen =>
      split at h
      case isTrue => exact nomatch h
      case isFalse hcrc =>
        have hsame : whole = payload := Except.ok.inj h
        subst hsame
        obtain ⟨parts, hparts, hpayload⟩ := readBlocks_ok hblocks
        exact ⟨not_not.1 hstructural, parts, hparts, hpayload, not_not.1 hlen, not_not.1 hcrc⟩

theorem drop_flatten_full {n : ℕ} (hn : 0 < n) {parts : List Bytes}
    (hfull : ∀ part ∈ parts, part.length = n) {pos : ℕ} {part : Bytes}
    (hpart : parts[pos / n]? = some part) :
    parts.flatten.drop pos = part.drop (pos % n) ++ (parts.drop (pos / n + 1)).flatten := by
  induction parts generalizing pos with
  | nil => exact absurd hpart (by simp)
  | cons first parts ih =>
      have hlen := hfull first List.mem_cons_self
      rw [List.flatten_cons]
      by_cases hpos : pos < n
      · rw [Nat.div_eq_of_lt hpos] at hpart ⊢
        rw [Nat.mod_eq_of_lt hpos]
        have hfirst : first = part := Option.some.inj hpart
        rw [List.drop_append_of_le_length (by omega), hfirst]
        rfl
      · have hdiv : pos / n = (pos - n) / n + 1 := Nat.div_eq_sub_div hn (Nat.le_of_not_lt hpos)
        have hmod : pos % n = (pos - n) % n := Nat.mod_eq_sub_mod (Nat.le_of_not_lt hpos)
        rw [hdiv, List.getElem?_cons_succ] at hpart
        have hskip : pos = first.length + (pos - n) := by omega
        rw [hdiv, hmod, List.drop_succ_cons, ← ih
          (fun part hpart => hfull part (List.mem_cons_of_mem _ hpart)) hpart]
        conv_lhs => rw [hskip, ← List.drop_drop, List.drop_left]

theorem PinsTo.getElem? {pin : Pin} {blocks : List Word} {parts : List Bytes}
    (h : PinsTo pin blocks parts) {i : ℕ} (hi : i < parts.length) :
    ∃ ptr part, blocks[i]? = some ptr ∧ parts[i]? = some part ∧
      ∃ hlen : part.length = blockSize, pin ptr = .ok ⟨part, hlen⟩ := by
  induction h generalizing i with
  | nil => exact absurd hi (Nat.not_lt_zero _)
  | cons hpart _ ih =>
      cases i with
      | zero => exact ⟨_, _, rfl, rfl, hpart⟩
      | succ i => exact ih (Nat.lt_of_succ_lt_succ hi)

theorem blockPart_ok {pin : Pin} {blocks : List Word} {parts : List Bytes}
    (h : PinsTo pin blocks parts) {pos len : ℕ} (hpos : pos < parts.flatten.length)
    (hlen : len ≤ blockSize - pos % blockSize) :
    blockPart pin blocks pos len = .ok ((parts.flatten.drop pos).take len) := by
  have hsize : 0 < blockSize := Nat.succ_pos _
  rw [length_flatten_full h.full] at hpos
  obtain ⟨ptr, part, hptr, hpart, hfull, hpin⟩ :=
    h.getElem? ((Nat.div_lt_iff_lt_mul hsize).2 hpos)
  rw [blockPart, hptr]
  dsimp only
  rw [hpin, ok_bind, drop_flatten_full hsize h.full hpart, List.take_append_of_le_length]
  rw [List.length_drop, hfull]
  exact hlen

theorem spanFrom_ok {pin : Pin} {blocks : List Word} {parts : List Bytes}
    (h : PinsTo pin blocks parts) {pos stop : ℕ} (hstop : stop ≤ parts.flatten.length) :
    spanFrom pin blocks pos stop = .ok ((parts.flatten.drop pos).take (stop - pos)) := by
  fun_induction spanFrom pin blocks pos stop with
  | case1 pos hlt len ih =>
      have hlen : len ≤ stop - pos := Nat.min_le_left _ _
      have hsum : stop - pos = len + (stop - (pos + len)) := by omega
      have hwhole : (parts.flatten.drop pos).take (stop - pos) =
          (parts.flatten.drop pos).take len ++
            (parts.flatten.drop (pos + len)).take (stop - (pos + len)) := by
        rw [hsum, List.take_add, List.drop_drop]
      rw [blockPart_ok h (hlt.trans_le hstop) (Nat.min_le_right _ _), ok_bind, ih, ok_bind, hwhole]
  | case2 pos hge =>
      rw [Nat.sub_eq_zero_of_le (Nat.le_of_not_lt hge), List.take_zero]

theorem readPayloadSpan_ok {pin : Pin} {m : SegmentMeta} {parts : List Bytes}
    (h : PinsTo pin m.blocks parts) {payload : Bytes}
    (hpayload : payload = (parts.flatten.drop m.start.toNat).take m.payloadLen.toNat)
    (hlen : payload.length = m.payloadLen.toNat) {lo hi : ℕ} (hle : lo ≤ hi)
    (hhi : hi ≤ payload.length) :
    readPayloadSpan pin m lo hi = .ok ((payload.drop lo).take (hi - lo)) := by
  have hend : hi = lo ∨ hi + m.start.toNat ≤ parts.flatten.length := by
    rw [hpayload, List.length_take, List.length_drop] at hhi
    omega
  have hspan : ((parts.flatten.drop (lo + m.start.toNat)).take
      (hi + m.start.toNat - (lo + m.start.toNat))) = (payload.drop lo).take (hi - lo) := by
    rw [hpayload, List.drop_take, List.drop_drop, List.take_take, Nat.add_comm lo]
    congr 1
    omega
  rw [readPayloadSpan, if_neg (by omega)]
  split
  case isTrue heq => rw [heq, Nat.sub_self, List.take_zero]
  case isFalse hne =>
    have hin : hi + m.start.toNat ≤ parts.flatten.length := by omega
    dsimp only
    split
    case isTrue hsame =>
      rw [blockPart_ok h (by omega), hspan]
      have hdiv := Nat.div_add_mod (lo + m.start.toNat) blockSize
      have hdiv' := Nat.div_add_mod (hi + m.start.toNat - 1) blockSize
      have hmod := Nat.mod_lt (hi + m.start.toNat - 1) (show 0 < blockSize from Nat.succ_pos _)
      rw [← hsame] at hdiv'
      omega
    case isFalse => rw [spanFrom_ok h hin, hspan]

end Zu.Segment
