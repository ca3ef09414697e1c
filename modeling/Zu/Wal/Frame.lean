import Zu.Wal.RecordCodec

/-!
# Frames

A frame is `len: u32 | crc32c: u32 | body` and a body is
`epoch: u64 | kind: u8 | payload`. The checksum is a parameter. A scan takes
frames until one does not verify: `scan` is the loop that `open_on`,
`rollback_above` and `replay` all run, and `scan_framed` says that it finds the
bodies that were framed, and `scan_spec` that it finds nothing else.
-/

namespace Zu.Wal

open Lib

/-- Frame prefix: `len: u32 | crc32c: u32`. -/
def prefixLen : ℕ := 8

/-- Body floor: `epoch: u64 | kind: u8` with an empty payload. -/
def minBody : ℕ := 9

/-- The body of a record's frame. -/
def body (epoch : Epoch) (r : WalRecord) : Bytes :=
  leBytes 8 epoch ++ (UInt8.ofNat r.kind :: r.encodePayload)

def bodyEpoch (b : Bytes) : Epoch := fromLe (b.take 8)

def bodyKind (b : Bytes) : ℕ := ((b.drop 8).headD 0).toNat

def bodyRecord (b : Bytes) : Except ZuError WalRecord :=
  (WalRecord.decode (bodyKind b) (b.drop 9)).map Prod.fst

theorem length_body (epoch : Epoch) (r : WalRecord) :
    (body epoch r).length = minBody + r.encodePayload.length := by
  rw [body, List.length_append, length_leBytes, List.length_cons, minBody]
  omega

theorem kind_lt (r : WalRecord) : r.kind < 256 := by
  cases r <;> simp [WalRecord.kind, kindCheckpointNote]

@[simp] theorem bodyEpoch_body {epoch : Epoch} (h : epoch < 2 ^ 64)
    (r : WalRecord) : bodyEpoch (body epoch r) = epoch := by
  have hlen : (leBytes 8 epoch).length = 8 := length_leBytes 8 epoch
  rw [bodyEpoch, body, List.take_append_of_le_length hlen.ge,
    List.take_of_length_le hlen.le, fromLe_leBytes_of_lt (by omega)]

theorem drop_body (epoch : Epoch) (r : WalRecord) :
    (body epoch r).drop 8 = UInt8.ofNat r.kind :: r.encodePayload := by
  have hlen : (leBytes 8 epoch).length = 8 := length_leBytes 8 epoch
  rw [body, List.drop_append_of_le_length hlen.ge,
    List.drop_eq_nil_of_le hlen.le, List.nil_append]

@[simp] theorem bodyKind_body (epoch : Epoch) (r : WalRecord) :
    bodyKind (body epoch r) = r.kind := by
  rw [bodyKind, drop_body, List.headD_cons]
  simpa using kind_lt r

theorem bodyRecord_body (epoch : Epoch) {r : WalRecord} (hfits : r.Fits)
    (hshape : r.WellShaped) : bodyRecord (body epoch r) = .ok r := by
  have hdrop : (body epoch r).drop 9 = r.encodePayload := by
    rw [show 9 = 8 + 1 from rfl, ← List.drop_drop, drop_body, List.drop_one,
      List.tail_cons]
  rw [bodyRecord, bodyKind_body, hdrop,
    WalRecord.decode_encodePayload hfits hshape]
  rfl

variable (crc : Bytes → UInt32)

/-- The bytes `append` puts in front of a body, and the body. -/
def frame (b : Bytes) : Bytes :=
  putU32 b.length ++ putU32 (crc b).toNat ++ b

/-- Frames laid end to end. -/
def framed (bs : List Bytes) : Bytes := bs.flatMap (frame crc)

/-- The frame that starts at `pos`, as its body and where the next one starts,
or `none` at a torn tail. -/
def nextFrame (bytes : Bytes) (pos : ℕ) : Option (Bytes × ℕ) :=
  let rest := bytes.drop pos
  let len := fromLe (rest.take 4)
  let stored := fromLe ((rest.drop 4).take 4)
  if rest.length < prefixLen then none
  else if len < minBody ∨ rest.length < prefixLen + len then none
  else
    let b := (rest.drop prefixLen).take len
    if (crc b).toNat ≠ stored then none else some (b, pos + prefixLen + len)

/-- The bodies from `pos` on up to the first frame that does not verify, and
where it starts. -/
def scanFrom : ℕ → Bytes → ℕ → List Bytes × ℕ
  | 0, _, pos => ([], pos)
  | fuel + 1, bytes, pos =>
      match nextFrame crc bytes pos with
      | none => ([], pos)
      | some (b, next) =>
          let found := scanFrom fuel bytes next
          (b :: found.1, found.2)

/-- The bodies of a log and where the last one ends. -/
def scan (bytes : Bytes) : List Bytes × ℕ :=
  scanFrom crc (bytes.length + 1) bytes 0

/-- A body whose frame can say how long it is. -/
def BodyFits (b : Bytes) : Prop := minBody ≤ b.length ∧ b.length < 2 ^ 32

variable {crc}

theorem length_frame (b : Bytes) :
    (frame crc b).length = prefixLen + b.length := by
  simp [frame, putU32, prefixLen]
  omega

@[simp] theorem framed_nil : framed crc [] = [] := rfl

theorem framed_append (as bs : List Bytes) :
    framed crc (as ++ bs) = framed crc as ++ framed crc bs :=
  List.flatMap_append

theorem framed_cons (b : Bytes) (bs : List Bytes) :
    framed crc (b :: bs) = frame crc b ++ framed crc bs := rfl

theorem length_le_framed (crc : Bytes → UInt32) (bs : List Bytes) :
    bs.length ≤ (framed crc bs).length := by
  refine length_le_length_flatMap fun b _ => ?_
  rw [length_frame, prefixLen]
  omega

variable (crc)

theorem take_frame {b : Bytes} (h : b.length < 2 ^ 32) (rest : Bytes) :
    fromLe ((frame crc b ++ rest).take 4) = b.length ∧
      fromLe (((frame crc b ++ rest).drop 4).take 4) = (crc b).toNat ∧
        (frame crc b ++ rest).drop prefixLen = b ++ rest := by
  have hlen : (putU32 b.length).length = 4 := length_leBytes 4 _
  have hcrc : (putU32 (crc b).toNat).length = 4 := length_leBytes 4 _
  have hshape : frame crc b ++ rest =
      putU32 b.length ++ (putU32 (crc b).toNat ++ (b ++ rest)) := by
    simp only [frame, List.append_assoc]
  have hdrop : (frame crc b ++ rest).drop 4 = putU32 (crc b).toNat ++ (b ++ rest) := by
    rw [hshape, List.drop_append_of_le_length hlen.ge,
      List.drop_eq_nil_of_le hlen.le, List.nil_append]
  refine ⟨?_, ?_, ?_⟩
  · rw [hshape, List.take_append_of_le_length hlen.ge,
      List.take_of_length_le hlen.le]
    exact fromLe_leBytes_of_lt (by omega)
  · rw [hdrop, List.take_append_of_le_length hcrc.ge,
      List.take_of_length_le hcrc.le]
    exact fromLe_leBytes_of_lt (crc b).toNat_lt
  · rw [prefixLen, show 8 = 4 + 4 from rfl, ← List.drop_drop, hdrop,
      List.drop_append_of_le_length hcrc.ge, List.drop_eq_nil_of_le hcrc.le,
      List.nil_append]

theorem nextFrame_frame (pre : Bytes) {b : Bytes} (h : BodyFits b) (rest : Bytes) :
    nextFrame crc (pre ++ (frame crc b ++ rest)) pre.length =
      some (b, (pre ++ frame crc b).length) := by
  obtain ⟨hlen, hstored, hdrop⟩ := take_frame crc h.2 rest
  have hrest : (pre ++ (frame crc b ++ rest)).drop pre.length =
      frame crc b ++ rest := List.drop_left
  have htotal : (frame crc b ++ rest).length =
      prefixLen + b.length + rest.length := by
    rw [List.length_append, length_frame]
  have hmin := h.1
  unfold nextFrame
  simp only [hrest, hlen, hstored, hdrop, htotal]
  rw [if_neg (by omega), if_neg (by omega), List.take_left, if_neg (by simp),
    List.length_append, length_frame, add_assoc]

variable {crc}

/-- The scan stops where the zeros of a reservation begin. -/
theorem nextFrame_zeros (pre : Bytes) (m : ℕ) :
    nextFrame crc (pre ++ zeros m) pre.length = none := by
  have hrest : (pre ++ zeros m).drop pre.length = zeros m := List.drop_left
  have hlen : fromLe ((zeros m).take 4) = 0 := by
    rw [take_zeros, fromLe_zeros]
  unfold nextFrame
  simp only [hrest, hlen, minBody]
  split_ifs <;> first | rfl | omega

/-- What a scan takes for a frame is the frame of a body that fits. -/
theorem nextFrame_some {bytes b : Bytes} {pos next : ℕ}
    (h : nextFrame crc bytes pos = some (b, next)) :
    BodyFits b ∧ bytes.drop pos = frame crc b ++ bytes.drop next ∧
      next = pos + (frame crc b).length := by
  simp only [nextFrame] at h
  set rest := bytes.drop pos with hrest
  split_ifs at h with hshort hlen hcrc
  rw [Option.some.injEq, Prod.mk.injEq] at h
  obtain ⟨hb, hnext⟩ := h
  have hlenb : b.length = fromLe (rest.take 4) := by
    rw [← hb, List.length_take, List.length_drop]
    omega
  have hstored : (crc b).toNat = fromLe ((rest.drop 4).take 4) := by
    rw [← hb]
    exact not_not.1 hcrc
  have h4 : (rest.take 4).length = 4 := by
    rw [List.length_take, prefixLen] at *
    omega
  have h8 : ((rest.drop 4).take 4).length = 4 := by
    rw [List.length_take, List.length_drop]
    rw [prefixLen] at hshort
    omega
  have hfields : frame crc b =
      rest.take 4 ++ (rest.drop 4).take 4 ++ b := by
    have hfirst := leBytes_fromLe (rest.take 4)
    have hsecond := leBytes_fromLe ((rest.drop 4).take 4)
    rw [h4] at hfirst
    rw [h8] at hsecond
    rw [frame, putU32, putU32, hlenb, hstored, hfirst, hsecond]
  have hfits : BodyFits b := by
    have hlt := fromLe_lt (rest.take 4)
    rw [h4] at hlt
    exact ⟨by omega, by omega⟩
  have hpos : next = pos + (frame crc b).length := by
    rw [length_frame, hlenb, ← hnext, add_assoc]
  refine ⟨hfits, ?_, hpos⟩
  have htail : bytes.drop next = (rest.drop prefixLen).drop (fromLe (rest.take 4)) := by
    rw [hrest, List.drop_drop, List.drop_drop, ← hrest, ← hnext, add_assoc]
  have hparts : rest = rest.take 4 ++ ((rest.drop 4).take 4 ++ rest.drop 8) := by
    rw [show 8 = 4 + 4 from rfl, ← List.drop_drop, List.take_append_drop,
      List.take_append_drop]
  rw [hfields, htail, List.append_assoc, List.append_assoc, ← hb,
    List.take_append_drop]
  exact hparts

/-- A log is the frames a scan finds and a tail the scan stops at. -/
theorem scanFrom_spec (crc : Bytes → UInt32) (fuel : ℕ) (bytes : Bytes) (pos : ℕ)
    (hfuel : bytes.length < pos + fuel) :
    (∀ b ∈ (scanFrom crc fuel bytes pos).1, BodyFits b) ∧
      bytes.drop pos = framed crc (scanFrom crc fuel bytes pos).1 ++
        bytes.drop (scanFrom crc fuel bytes pos).2 ∧
      (scanFrom crc fuel bytes pos).2 =
        pos + (framed crc (scanFrom crc fuel bytes pos).1).length ∧
      nextFrame crc bytes (scanFrom crc fuel bytes pos).2 = none := by
  induction fuel generalizing pos with
  | zero =>
      have hempty : bytes.drop pos = [] := List.drop_eq_nil_of_le (by omega)
      simp [scanFrom, nextFrame, hempty, prefixLen]
  | succ fuel ih =>
      cases hnext : nextFrame crc bytes pos with
      | none => simp [scanFrom, hnext]
      | some found =>
          obtain ⟨b, next⟩ := found
          obtain ⟨hfits, hdrop, hpos⟩ := nextFrame_some hnext
          rw [length_frame, prefixLen] at hpos
          obtain ⟨hall, hrest, hend, hstop⟩ := ih next (by omega)
          simp only [scanFrom, hnext]
          refine ⟨?_, ?_, ?_, hstop⟩
          · intro c hc
            rcases List.mem_cons.1 hc with rfl | hc
            · exact hfits
            · exact hall c hc
          · rw [framed_cons, List.append_assoc, ← hrest, hdrop]
          · rw [hend, framed_cons, List.length_append, length_frame, prefixLen]
            omega

variable (crc) in
theorem scan_spec (bytes : Bytes) :
    (∀ b ∈ (scan crc bytes).1, BodyFits b) ∧
      bytes = framed crc (scan crc bytes).1 ++ bytes.drop (scan crc bytes).2 ∧
      (scan crc bytes).2 = (framed crc (scan crc bytes).1).length ∧
      nextFrame crc bytes (scan crc bytes).2 = none := by
  have h := scanFrom_spec crc (bytes.length + 1) bytes 0 (by omega)
  rwa [List.drop_zero, Nat.zero_add] at h

theorem scanFrom_framed (bs : List Bytes) (hbs : ∀ b ∈ bs, BodyFits b)
    (pre tail : Bytes)
    (hstop : nextFrame crc (pre ++ framed crc bs ++ tail)
      (pre ++ framed crc bs).length = none)
    {fuel : ℕ} (hfuel : bs.length ≤ fuel) :
    scanFrom crc fuel (pre ++ framed crc bs ++ tail) pre.length =
      (bs, (pre ++ framed crc bs).length) := by
  induction bs generalizing pre fuel with
  | nil =>
      simp only [framed_nil, List.append_nil] at hstop ⊢
      cases fuel with
      | zero => rfl
      | succ fuel => rw [scanFrom, hstop]
  | cons b bs ih =>
      cases fuel with
      | zero => simp at hfuel
      | succ fuel =>
          have hshape : pre ++ framed crc (b :: bs) ++ tail =
              pre ++ (frame crc b ++ (framed crc bs ++ tail)) := by
            simp only [framed_cons, List.append_assoc]
          have hshape' : pre ++ framed crc (b :: bs) ++ tail =
              (pre ++ frame crc b) ++ framed crc bs ++ tail := by
            simp only [framed_cons, List.append_assoc]
          have hend : pre ++ framed crc (b :: bs) =
              (pre ++ frame crc b) ++ framed crc bs := by
            simp only [framed_cons, List.append_assoc]
          rw [hend] at hstop ⊢
          have hfound := ih (fun c hc => hbs c (List.mem_cons_of_mem b hc))
            (pre ++ frame crc b) hstop (by simpa using hfuel)
          have hnext := nextFrame_frame crc pre
            (hbs b List.mem_cons_self) (framed crc bs ++ tail)
          rw [← hshape, hshape'] at hnext
          rw [scanFrom, hnext]
          simp only [hfound]

/-- The scan of frames followed by something that is not a frame finds their
bodies. -/
theorem scan_framed {bs : List Bytes} (hbs : ∀ b ∈ bs, BodyFits b)
    {tail : Bytes}
    (hstop : nextFrame crc (framed crc bs ++ tail) (framed crc bs).length = none) :
    scan crc (framed crc bs ++ tail) = (bs, (framed crc bs).length) := by
  have hfuel : bs.length ≤ (framed crc bs ++ tail).length := by
    rw [List.length_append]
    exact (length_le_framed crc bs).trans (Nat.le_add_right _ _)
  exact scanFrom_framed bs hbs [] tail hstop (hfuel.trans (Nat.le_succ _))

theorem scan_framed_zeros {bs : List Bytes} (hbs : ∀ b ∈ bs, BodyFits b)
    (m : ℕ) : scan crc (framed crc bs ++ zeros m) = (bs, (framed crc bs).length) :=
  scan_framed hbs (nextFrame_zeros _ m)

end Zu.Wal
