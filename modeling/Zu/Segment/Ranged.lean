import Zu.Segment.Zipped
import Zu.Segment.Span

/-!
# Ranged reads of a blob column

`read_blob_range` decodes the chunks a range of rows falls in, off spans of the payload.
Of a segment that is read whole it reads what the whole read does, cut to the range, and
what it refuses it leaves no trace of.
-/

namespace Zu.Segment

open Lib Encoding

namespace FullZip

/-- A reader that cannot panic. -/
def calm {α : Type} (x : Fallible ZuError Out α) : Fallible (Stop ZuError) Out α := fun out =>
  match x.exec out with
  | (.ok a, out') => (.ok a, out')
  | (.error e, out') => (.error (.refused e), out')

/-- `inspect_err`: a refused read cuts the vectors back. -/
def orCutBack {α : Type} (x : Fallible (Stop ZuError) Out α) : Fallible (Stop ZuError) Out α :=
  fun out =>
    match x.exec out with
    | (.error (.refused e), out') =>
        (.error (.refused e),
          { bytes := out'.bytes.take out.bytes.length, ends := out'.ends.take out.ends.length })
    | done => done

section

variable (crc32c : Bytes → BitVec 32) (pin : Pin) (m : SegmentMeta)

def readBlobSegment : Fallible (Stop ZuError) Out Unit := do
  let payload ← liftExcept (readPayload crc32c pin .fullZip corrupt
    "FullZip reader given a MiniBlock segment" m)
  calm (decodePayload payload m.valueCount.toNat m.uncompressedBytes.toNat)

/-- The entry of a chunk in a span of the index that starts with the chunk `lo`. -/
def entry (span : Bytes) (lo chunk : ℕ) : ℕ := field span ((chunk - lo) * 8) 8

/-- The loop of `read_blob_range` over `n` more chunks. -/
def rangeFrom (start stop lo : ℕ) (compSpan rawSpan bytes : Bytes) (bodyStart : ℕ) :
    ℕ → ℕ → ℕ → Fallible (Stop ZuError) Out Unit
  | 0, _, _ => pure ()
  | n + 1, i, prevComp => do
      let compEnd := entry compSpan lo i
      if compEnd < prevComp then throw (.refused (corrupt "chunk index not monotone"))
      else
        let prevRaw := if i = 0 then 0 else entry rawSpan lo (i - 1)
        let rawEnd := entry rawSpan lo i
        if rawEnd < prevRaw then throw (.refused (corrupt "chunk index not monotone"))
        else if maxChunkRaw < rawEnd - prevRaw then
          throw (.refused (corrupt "chunk above the raw cap"))
        else do
          let loRow := max start (i * chunkRows) - i * chunkRows
          let hiRow := min stop ((i + 1) * chunkRows) - i * chunkRows
          let chunk ← liftExcept
            (Checked.slice bytes (prevComp - bodyStart) (compEnd - bodyStart) : Reads)
          let z ← liftExcept (Checked.ofExcept (unpackChunk chunk (rawEnd - prevRaw)) : Reads)
          calm (unzipRows z (m.rowsOf i) loRow hiRow false)
          rangeFrom start stop lo compSpan rawSpan bytes bodyStart n (i + 1) compEnd

/-- `read_blob_range`, in a build with overflow checks or without. -/
def readBlobRange (checks : Bool) (start stop : ℕ) : Fallible (Stop ZuError) Out Unit :=
  if stop < start ∨ m.valueCount.toNat < stop then
    throw (.refused (.invalidArgument s!"range {start}..{stop} out of 0..{m.valueCount.toNat}"))
  else if m.structural ≠ .fullZip then
    throw (.refused (corrupt "FullZip reader given a MiniBlock segment"))
  else if start = stop then pure ()
  else
    orCutBack do
      let total := m.chunkCount
      let bodyOff := 4 + total * 16
      let first := start / chunkRows
      let last := (stop - 1) / chunkRows
      -- the end of the chunk before the first says where the first starts
      let lo := first - 1
      let compSpan ← liftExcept (Checked.ofExcept
        (readPayloadSpan pin m (4 + lo * 8) (4 + (last + 1) * 8)) : Reads)
      let rawSpan ← liftExcept (Checked.ofExcept
        (readPayloadSpan pin m (4 + (total + lo) * 8) (4 + (total + last + 1) * 8)) : Reads)
      let bodyStart := if first = 0 then 0 else entry compSpan lo (first - 1)
      let bodyEnd := entry compSpan lo last
      let stopAt ← liftExcept (Checked.word checks (bodyOff + bodyEnd) : Checked ZuError ℕ)
      if bodyEnd < bodyStart ∨ m.payloadLen.toNat < stopAt then
        throw (.refused (corrupt "chunk index not monotone"))
      else do
        let startAt ← liftExcept (Checked.word checks (bodyOff + bodyStart) : Checked ZuError ℕ)
        let bytes ← liftExcept (Checked.ofExcept (readPayloadSpan pin m startAt stopAt) : Reads)
        rangeFrom m start stop lo compSpan rawSpan bytes bodyStart (last + 1 - first) first
          bodyStart

end

/-!
## What a ranged read gives

The chunks of a range are found where the whole read finds them, and the rows of each
that fall in the range are appended, so a ranged read gives the strings of the whole
read, cut to the range.
-/

/-! ### Readers that cut back what they appended -/

theorem calm_ok {α : Type} {x : Fallible ZuError Out α} {out out' : Out} {a : α} :
    (calm x).exec out = (.ok a, out') ↔ x.exec out = (.ok a, out') := by
  rw [Fallible.exec, calm]
  cases x.exec out with
  | mk r s =>
      cases r with
      | ok b => simp
      | error e =>
          constructor
          · intro h
            cases congrArg Prod.fst h
          · intro h
            cases congrArg Prod.fst h

theorem calm_refused {α : Type} {x : Fallible ZuError Out α} {out out' : Out} {e : ZuError} :
    (calm x).exec out = (.error (.refused e), out') ↔ x.exec out = (.error e, out') := by
  rw [Fallible.exec, calm]
  cases x.exec out with
  | mk r s =>
      cases r with
      | ok b =>
          constructor
          · intro h
            cases congrArg Prod.fst h
          · intro h
            cases congrArg Prod.fst h
      | error e' => simp

theorem appends_calm {α : Type} {x : Fallible ZuError Out α} (hx : Appends x) : Appends (calm x) := by
  intro out s hs
  obtain ⟨hok, herr⟩ := hx out s hs
  constructor
  · exact fun a t h => hok a t (calm_ok.1 h)
  · intro e t h
    cases e with
    | refused e => exact herr e t (calm_refused.1 h)
    | panicked =>
        rw [Fallible.exec, calm] at h
        cases hrun : x.exec s with
        | mk r s' =>
            rw [hrun] at h
            cases r with
            | ok a => cases congrArg Prod.fst h
            | error e => cases congrArg Prod.fst h

theorem orCutBack_refused {α : Type} {x : Fallible (Stop ZuError) Out α} (hx : Appends x)
    {out out' : Out} {e : ZuError} (h : (orCutBack x).exec out = (.error (.refused e), out')) :
    out' = out := by
  rw [Fallible.exec, orCutBack] at h
  cases hrun : x.exec out with
  | mk r s =>
      rw [hrun] at h
      cases r with
      | ok a => cases congrArg Prod.fst h
      | error stop =>
          cases stop with
          | panicked => cases congrArg Prod.fst h
          | refused e' =>
              have hs := ((hx out) out (Out.Extends.refl out)).2 _ s hrun
              rw [← (Prod.mk.inj h).2]
              exact hs.take

theorem orCutBack_ok {α : Type} {x : Fallible (Stop ZuError) Out α} {out out' : Out} {a : α}
    (h : x.exec out = (.ok a, out')) : (orCutBack x).exec out = (.ok a, out') := by
  rw [Fallible.exec, orCutBack, h]

theorem appends_throw {ε α : Type} (e : ε) : Appends (throw e : Fallible ε Out α) := fun _ =>
  Triple.throw fun _ h => h

theorem Appends.ite {ε α : Type} {c : Prop} [Decidable c] {x y : Fallible ε Out α} (hx : Appends x)
    (hy : Appends y) : Appends (if c then x else y) := fun out =>
  Triple.ite (fun _ => hx out) fun _ => hy out

theorem appends_rangeFrom (m : SegmentMeta) (start stop lo : ℕ) (compSpan rawSpan bytes : Bytes)
    (bodyStart n i prevComp : ℕ) :
    Appends (rangeFrom m start stop lo compSpan rawSpan bytes bodyStart n i prevComp) := by
  induction n generalizing i prevComp with
  | zero => exact fun _ => Triple.pure fun _ h => h
  | succ n ih =>
      rw [rangeFrom]
      apply Appends.ite (appends_throw _)
      apply Appends.ite (appends_throw _)
      apply Appends.ite (appends_throw _)
      apply Appends.bind (appends_liftExcept _)
      intro chunk
      apply Appends.bind (appends_liftExcept _)
      intro z
      apply Appends.bind (appends_calm (appends_unzipRows _ _ _ _ _))
      intro _
      exact ih _ _

/-- A ranged read that is refused leaves the vectors as they were. -/
theorem readBlobRange_refused {pin : Pin} {m : SegmentMeta} {checks : Bool} {start stop : ℕ}
    {out out' : Out} {e : ZuError}
    (h : (readBlobRange pin m checks start stop).exec out = (.error (.refused e), out')) :
    out' = out := by
  rw [readBlobRange] at h
  split at h
  case isTrue => exact (congrArg Prod.snd h).symm
  case isFalse =>
    split at h
    case isTrue => exact (congrArg Prod.snd h).symm
    case isFalse =>
      split at h
      case isTrue => exact nomatch (congrArg Prod.fst h)
      case isFalse =>
        refine orCutBack_refused ?_ h
        apply Appends.bind (appends_liftExcept _)
        intro compSpan
        apply Appends.bind (appends_liftExcept _)
        intro rawSpan
        apply Appends.bind (appends_liftExcept _)
        intro stopAt
        apply Appends.ite (appends_throw _)
        apply Appends.bind (appends_liftExcept _)
        intro startAt
        apply Appends.bind (appends_liftExcept _)
        intro bytes
        exact appends_rangeFrom _ _ _ _ _ _ _ _ _ _ _

theorem appends_get {ε : Type} : Appends (get : Fallible ε Out Out) := fun _ =>
  Triple.get fun _ h => h

theorem decodePayload_error {payload : Bytes} {valueCount uncompressedBytes : ℕ} {out out' : Out}
    {e : ZuError}
    (h : (decodePayload payload valueCount uncompressedBytes).exec out = (.error e, out')) :
    out' = out := by
  refine orTruncate_error ?_ h
  apply Appends.bind appends_get
  intro before
  apply Appends.ite (appends_throw _)
  apply Appends.ite (appends_throw _)
  apply Appends.ite (appends_throw _)
  apply Appends.bind (appends_decodeChunks _ _ _ _ _ _ _)
  intro prevComp
  apply Appends.ite (appends_throw _)
  apply Appends.bind appends_get
  intro after
  exact appends_unless _

theorem readBlobSegment_refused {crc32c : Bytes → BitVec 32} {pin : Pin} {m : SegmentMeta}
    {out out' : Out} {e : ZuError}
    (h : (readBlobSegment crc32c pin m).exec out = (.error (.refused e), out')) : out' = out := by
  rw [readBlobSegment, exec_bind] at h
  cases hread : readPayload crc32c pin .fullZip corrupt "FullZip reader given a MiniBlock segment" m with
  | error stop =>
      rw [hread, exec_liftExcept_error] at h
      exact (congrArg Prod.snd h).symm
  | ok payload =>
      rw [hread, exec_liftExcept_ok] at h
      exact decodePayload_error (calm_refused.1 h)

/-! ### The rows of a range -/

theorem chunkAt_ok {body z : Bytes} {prevComp compEnd prevRaw rawEnd : ℕ}
    (h : chunkAt body prevComp compEnd prevRaw rawEnd = .ok z) :
    prevComp ≤ compEnd ∧ compEnd ≤ body.length ∧ prevRaw ≤ rawEnd ∧ rawEnd - prevRaw ≤ maxChunkRaw ∧
      unpackChunk ((body.drop prevComp).take (compEnd - prevComp)) (rawEnd - prevRaw) = .ok z := by
  rw [chunkAt] at h
  split_ifs at h with hcomp hraw hcap
  have hends := not_or.1 hcomp
  exact ⟨Nat.le_of_not_lt hends.1, Nat.le_of_not_lt hends.2, Nat.le_of_not_lt hraw,
    Nat.le_of_not_lt hcap, h⟩

/-- Where the chunk before `i` ends, of where each chunk ends. -/
def endBefore (ends : ℕ → ℕ) (i : ℕ) : ℕ := if i = 0 then 0 else ends (i - 1)

@[simp] theorem endBefore_succ (ends : ℕ → ℕ) (i : ℕ) : endBefore ends (i + 1) = ends i := rfl

theorem ChunksFrom.drop {payload : Bytes} {valueCount total i c j : ℕ} {vss : List (List Bytes)}
    (h : ChunksFrom payload valueCount total i (endBefore (compEnd payload) i)
      (endBefore (rawEnd payload total) i) vss c) (hj : j ≤ vss.length) :
    ChunksFrom payload valueCount total (i + j) (endBefore (compEnd payload) (i + j))
      (endBefore (rawEnd payload total) (i + j)) (vss.drop j) c := by
  induction j generalizing i vss with
  | zero => exact h
  | succ j ih =>
      cases vss with
      | nil => exact absurd hj (Nat.not_succ_le_zero j)
      | cons vs vss =>
          have hrest := ih (i := i + 1) h.2.2.2 (Nat.le_of_succ_le_succ hj)
          rw [Nat.add_right_comm] at hrest
          exact hrest

/-- The ends of the chunks go up, and none is past the body. -/
theorem ChunksFrom.compEnd_le {payload : Bytes} {valueCount total i prevComp prevRaw c j : ℕ}
    {vss : List (List Bytes)} (h : ChunksFrom payload valueCount total i prevComp prevRaw vss c)
    (hj : j < vss.length) :
    prevComp ≤ compEnd payload (i + j) ∧
      compEnd payload (i + j) ≤ (payload.drop (4 + total * 16)).length := by
  induction vss generalizing i prevComp prevRaw j with
  | nil => exact absurd hj (Nat.not_lt_zero j)
  | cons vs vss ih =>
      obtain ⟨hle, hin, -⟩ := chunkAt_ok h.2.2.1
      cases j with
      | zero => exact ⟨hle, hin⟩
      | succ j =>
          obtain ⟨hnext, hbody⟩ := ih h.2.2.2 (Nat.lt_of_succ_lt_succ hj)
          rw [Nat.add_right_comm] at hnext hbody
          exact ⟨hle.trans hnext, hbody⟩

theorem field_span {bytes : Bytes} {a w i k : ℕ} (h : i + k ≤ w) :
    field ((bytes.drop a).take w) i k = field bytes (a + i) k := by
  rw [field, field, List.drop_take, List.drop_drop, List.take_take, Nat.min_eq_left (by omega)]

/-- A cut of two lists is a cut of each, where the first is as long as the second is off or
covers the cut. -/
theorem cut_append {α : Type} {vs rest : List α} {a b k : ℕ}
    (h : vs.length = k ∨ a ≤ vs.length ∧ a ≤ k) :
    ((vs ++ rest).take a).drop b = (vs.take a).drop b ++ (rest.take (a - k)).drop (b - k) := by
  rcases h with hk | ⟨hvs, hk⟩
  · rw [List.take_append, List.drop_append, hk]
    by_cases ha : a ≤ k
    · rw [Nat.sub_eq_zero_of_le ha, List.take_zero, List.drop_nil, List.drop_nil]
    · rw [List.length_take, hk, Nat.min_eq_right (Nat.le_of_not_le ha)]
  · rw [List.take_append_of_le_length hvs, Nat.sub_eq_zero_of_le hk, List.take_zero, List.drop_nil,
      List.append_nil]

/-- What the loop of a ranged read has to go on: the entries of the index it looks at and
the bytes of its chunks, as they are in the payload. -/
structure Spans (payload : Bytes) (total first last lo : ℕ) (compSpan rawSpan bytes : Bytes)
    (bodyStart : ℕ) : Prop where
  comp : ∀ j, lo ≤ j → j ≤ last → entry compSpan lo j = compEnd payload j
  raw : ∀ j, lo ≤ j → j ≤ last → entry rawSpan lo j = rawEnd payload total j
  lo : lo = first - 1
  bytes : bytes = ((payload.drop (4 + total * 16)).drop bodyStart).take
    (compEnd payload last - bodyStart)
  body : compEnd payload last ≤ (payload.drop (4 + total * 16)).length

theorem Spans.slice {payload : Bytes} {total first last lo bodyStart prevComp i : ℕ}
    {compSpan rawSpan bytes : Bytes}
    (h : Spans payload total first last lo compSpan rawSpan bytes bodyStart)
    (hstart : bodyStart ≤ prevComp) (hle : prevComp ≤ compEnd payload i)
    (hlast : compEnd payload i ≤ compEnd payload last) :
    (Checked.slice bytes (prevComp - bodyStart) (compEnd payload i - bodyStart) : Reads) =
      .ok (((payload.drop (4 + total * 16)).drop prevComp).take (compEnd payload i - prevComp)) := by
  have hbody := h.body
  have hlen : bytes.length = compEnd payload last - bodyStart := by
    rw [h.bytes, List.length_take, List.length_drop]
    omega
  have hcut : compEnd payload i - bodyStart - (prevComp - bodyStart) = compEnd payload i - prevComp := by
    omega
  have hfrom : bodyStart + (prevComp - bodyStart) = prevComp := Nat.add_sub_cancel' hstart
  rw [Checked.slice_of_le (by omega) (by omega), hcut, h.bytes, List.drop_take, List.drop_drop, hfrom,
    List.take_take, Nat.min_eq_left (by omega)]

theorem le_of_last {stop last : ℕ} (hlast : last = (stop - 1) / chunkRows) :
    stop ≤ (last + 1) * chunkRows := by
  have hdiv := Nat.div_add_mod (stop - 1) chunkRows
  have hmod := Nat.mod_lt (stop - 1) chunkRows_pos
  rw [← hlast, Nat.mul_comm] at hdiv
  rw [Nat.succ_mul]
  omega

theorem wanted_rows (start a : ℕ) {stop count len rows : ℕ} (hstop : stop ≤ count)
    (hlen : len = min (count - a) rows) :
    min stop (a + rows) - a = min (stop - a) rows ∧ max start a - a = start - a ∧
      min (stop - a) rows ≤ len ∧ min (min (stop - a) rows) len = min (stop - a) len ∧
      (len = rows ∨ stop - a ≤ len ∧ stop - a ≤ rows) := by
  omega

theorem rangeFrom_ok {m : SegmentMeta} {payload : Bytes} {start stop first last lo bodyStart : ℕ}
    {compSpan rawSpan bytes : Bytes}
    (hspans : Spans payload m.chunkCount first last lo compSpan rawSpan bytes bodyStart)
    (hstop : stop ≤ m.valueCount.toNat) (hlast : last = (stop - 1) / chunkRows) {n i : ℕ}
    (hfirst : first ≤ i) (hn : i + n = last + 1) {vss : List (List Bytes)} {c : ℕ}
    (h : ChunksFrom payload m.valueCount.toNat m.chunkCount i (endBefore (compEnd payload) i)
      (endBefore (rawEnd payload m.chunkCount) i) vss c) (hcount : n ≤ vss.length)
    (hstart : bodyStart ≤ endBefore (compEnd payload) i) (out : Out) :
    (rangeFrom m start stop lo compSpan rawSpan bytes bodyStart n i
        (endBefore (compEnd payload) i)).exec out =
      (.ok (), out.pushAll ((vss.flatten.take (stop - i * chunkRows)).drop (start - i * chunkRows))) := by
  induction n generalizing i vss out with
  | zero =>
      have hnone : stop - i * chunkRows = 0 := by
        have hi : i = last + 1 := hn
        rw [hi]
        exact Nat.sub_eq_zero_of_le (le_of_last hlast)
      rw [hnone, List.take_zero, List.drop_nil]
      rfl
  | succ n ih =>
      cases vss with
      | nil => exact absurd hcount (Nat.not_succ_le_zero n)
      | cons vs vss =>
          obtain ⟨hlen, hshort, hat, hrest⟩ := h
          obtain ⟨hcomp, -, hraw, hcap, hunpack⟩ := chunkAt_ok hat
          have hcount' : n ≤ vss.length := Nat.le_of_succ_le_succ hcount
          have hend : compEnd payload i ≤ compEnd payload last := by
            cases n with
            | zero => rw [Nat.succ.inj hn]
            | succ n =>
                have hup := (hrest.compEnd_le (Nat.lt_of_succ_le hcount')).1
                have hi : i + 1 + n = last := by omega
                rw [hi] at hup
                exact hup
          have hi : i ≤ last := by
            rw [Nat.add_succ] at hn
            exact (Nat.le_add_right i n).trans_eq (Nat.succ.inj hn)
          obtain ⟨hrows, hfrom, hvs, hwhole, hcover⟩ :=
            wanted_rows start (i * chunkRows) hstop hlen
          rw [← Nat.succ_mul] at hrows
          have hprev : (if i = 0 then 0 else entry rawSpan lo (i - 1)) =
              endBefore (rawEnd payload m.chunkCount) i := by
            rw [endBefore]
            split
            case isTrue => rfl
            case isFalse hne =>
              exact hspans.raw _ (hspans.lo.trans_le (Nat.sub_le_sub_right hfirst 1))
                ((Nat.sub_le i 1).trans hi)
          have htake : vs.take (min (stop - i * chunkRows) chunkRows) = vs.take (stop - i * chunkRows) := by
            rw [List.take_eq_take_iff]
            exact hwhole
          have hlax := @unzipRows_lax vs hshort (m.rowsOf i) (start - i * chunkRows) _ hvs out
          rw [htake] at hlax
          have hcut : ((vs :: vss).flatten.take (stop - i * chunkRows)).drop (start - i * chunkRows) =
              (vs.take (stop - i * chunkRows)).drop (start - i * chunkRows) ++
                (vss.flatten.take (stop - (i + 1) * chunkRows)).drop (start - (i + 1) * chunkRows) := by
            rw [Nat.succ_mul, ← Nat.sub_sub, ← Nat.sub_sub, List.flatten_cons]
            exact cut_append hcover
          have hrest' : i + 1 + n = last + 1 := by rw [← hn, Nat.add_assoc, Nat.add_comm 1]
          have hlo : lo ≤ i := hspans.lo.trans_le ((Nat.sub_le first 1).trans hfirst)
          have hnext := ih (Nat.le_succ_of_le hfirst) hrest' hrest hcount' (hstart.trans hcomp)
            (out.pushAll ((vs.take (stop - i * chunkRows)).drop (start - i * chunkRows)))
          rw [endBefore_succ] at hnext
          rw [rangeFrom]
          dsimp only
          rw [hspans.comp i hlo hi, hspans.raw i hlo hi, hprev,
            if_neg (Nat.not_lt.2 hcomp), if_neg (Nat.not_lt.2 hraw), if_neg (Nat.not_lt.2 hcap),
            hspans.slice hstart hcomp hend, exec_bind, exec_liftExcept_ok]
          dsimp only
          rw [hunpack, exec_bind]
          dsimp only [Checked.ofExcept]
          rw [exec_liftExcept_ok]
          dsimp only
          rw [exec_bind, hrows, hfrom, calm_ok.2 hlax]
          dsimp only
          rw [hnext, hcut, pushAll_append]

theorem readBlobSegment_ok {crc32c : Bytes → BitVec 32} {pin : Pin} {m : SegmentMeta} {out full : Out}
    (h : (readBlobSegment crc32c pin m).exec out = (.ok (), full)) :
    m.structural = .fullZip ∧ ∃ parts payload vss, PinsTo pin m.blocks parts ∧
      payload = (parts.flatten.drop m.start.toNat).take m.payloadLen.toNat ∧
      payload.length = m.payloadLen.toNat ∧ Holds payload m.valueCount.toNat vss ∧
      full = out.pushAll vss.flatten := by
  rw [readBlobSegment] at h
  obtain ⟨payload, s, hread, hdecode⟩ := exec_bind_ok h
  obtain ⟨vss, hholds, -, hfull⟩ := decodePayload_ok.1 (calm_ok.1 hdecode)
  rw [exec_liftExcept] at hread
  obtain ⟨hpayload, hs⟩ := Prod.mk.inj hread
  obtain ⟨hstructural, parts, hparts, hcut, hlen, -⟩ := readPayload_ok hpayload
  rw [← hs] at hfull
  exact ⟨hstructural, parts, payload, vss, hparts, hcut, hlen, hholds, hfull⟩

theorem ChunksFrom.length_take {payload : Bytes} {valueCount total i prevComp prevRaw c j : ℕ}
    {vss : List (List Bytes)} (h : ChunksFrom payload valueCount total i prevComp prevRaw vss c)
    (hj : j ≤ vss.length) (hfull : (i + j) * chunkRows ≤ valueCount) :
    ((vss.take j).flatten).length = j * chunkRows := by
  induction j generalizing i prevComp prevRaw vss with
  | zero => rw [Nat.zero_mul, List.take_zero, List.flatten_nil, List.length_nil]
  | succ j ih =>
      cases vss with
      | nil => exact absurd hj (Nat.not_succ_le_zero j)
      | cons vs vss =>
          have hnext : i + 1 + j = i + (j + 1) := by omega
          have hrest := ih h.2.2.2 (Nat.le_of_succ_le_succ hj) (by rw [hnext]; exact hfull)
          have hlen := h.1
          rw [← hnext, Nat.add_mul, Nat.add_mul] at hfull
          rw [List.take_succ_cons, List.flatten_cons, List.length_append, hrest, hlen, Nat.succ_mul,
            Nat.min_eq_right (by omega), Nat.add_comm]

theorem ChunksFrom.length_flatten {payload : Bytes} {valueCount total i prevComp prevRaw c : ℕ}
    {vss : List (List Bytes)} (h : ChunksFrom payload valueCount total i prevComp prevRaw vss c) :
    vss.flatten.length = min (valueCount - i * chunkRows) (vss.length * chunkRows) := by
  induction vss generalizing i prevComp prevRaw with
  | nil => simp
  | cons vs vss ih =>
      have hrest := ih h.2.2.2
      have hlen := h.1
      rw [Nat.succ_mul] at hrest
      rw [List.flatten_cons, List.length_append, hrest, hlen, List.length_cons, Nat.succ_mul]
      omega

theorem Holds.length_flatten {payload : Bytes} {valueCount : ℕ} {vss : List (List Bytes)}
    (h : Holds payload valueCount vss) : vss.flatten.length = valueCount := by
  have hdiv := Nat.div_add_mod (valueCount + (chunkRows - 1)) chunkRows
  have hmod := Nat.mod_lt (valueCount + (chunkRows - 1)) chunkRows_pos
  rw [Nat.mul_comm] at hdiv
  rw [h.chunks.length_flatten, h.count, divCeil, Nat.zero_mul, Nat.sub_zero]
  apply Nat.min_eq_left
  omega

theorem last_lt_divCeil {n stop : ℕ} (hk : 0 < stop) (hstop : stop ≤ n) :
    (stop - 1) / chunkRows < divCeil n chunkRows := by
  rw [divCeil, Nat.div_lt_iff_lt_mul chunkRows_pos]
  have hdiv := Nat.div_add_mod (n + (chunkRows - 1)) chunkRows
  have hmod := Nat.mod_lt (n + (chunkRows - 1)) chunkRows_pos
  rw [Nat.mul_comm] at hdiv
  omega

/-- A ranged read of a segment that is read whole gives the strings of the whole read in
the range. -/
theorem readBlobRange_ok {pin : Pin} {m : SegmentMeta} {parts : List Bytes} {payload : Bytes}
    {vss : List (List Bytes)} (hstructural : m.structural = .fullZip)
    (hparts : PinsTo pin m.blocks parts)
    (hcut : payload = (parts.flatten.drop m.start.toNat).take m.payloadLen.toNat)
    (hlen : payload.length = m.payloadLen.toNat) (hholds : Holds payload m.valueCount.toNat vss)
    (checks : Bool) {start stop : ℕ} (hle : start ≤ stop) (hstop : stop ≤ m.valueCount.toNat)
    (out : Out) :
    (readBlobRange pin m checks start stop).exec out =
      (.ok (), out.pushAll ((vss.flatten.take stop).drop start)) := by
  rw [readBlobRange, if_neg (by omega), if_neg (not_not.2 hstructural)]
  split
  case isTrue heq =>
    rw [heq, List.drop_eq_nil_of_le (List.length_take_le _ _)]
    rfl
  case isFalse hne =>
    apply orCutBack_ok
    have htotal : m.chunkCount = vss.length := hholds.count.symm
    have hlong := hholds.long
    have hchunks := hholds.chunks
    rw [← htotal] at hlong hchunks
    have hlast : (stop - 1) / chunkRows < m.chunkCount := last_lt_divCeil (by omega) hstop
    have hfirst : start / chunkRows ≤ (stop - 1) / chunkRows := Nat.div_le_div_right (by omega)
    generalize hl : (stop - 1) / chunkRows = last at hlast hfirst
    generalize hf : start / chunkRows = first at hfirst
    have hstartRow : first * chunkRows ≤ start := hf ▸ Nat.div_mul_le_self start chunkRows
    have hfrom := hchunks.drop (j := first) (by omega)
    rw [Nat.zero_add] at hfrom
    have hends := hfrom.compEnd_le (j := last - first) (by rw [List.length_drop]; omega)
    rw [Nat.add_sub_cancel' hfirst] at hends
    obtain ⟨hup, hbody⟩ := hends
    have hbodyLen : (payload.drop (4 + m.chunkCount * 16)).length =
        payload.length - (4 + m.chunkCount * 16) := List.length_drop
    generalize hlo : first - 1 = lo
    have hcomp := @readPayloadSpan_ok pin m parts hparts payload hcut hlen (4 + lo * 8)
      (4 + (last + 1) * 8) (by omega) (by omega)
    have hraw := @readPayloadSpan_ok pin m parts hparts payload hcut hlen
      (4 + (m.chunkCount + lo) * 8) (4 + (m.chunkCount + last + 1) * 8) (by omega) (by omega)
    have hcompAt : ∀ j, lo ≤ j → j ≤ last → entry ((payload.drop (4 + lo * 8)).take
        (4 + (last + 1) * 8 - (4 + lo * 8))) lo j = compEnd payload j := by
      intro j hj hj'
      have hat : 4 + lo * 8 + (j - lo) * 8 = 4 + j * 8 := by omega
      rw [entry, field_span (by omega), hat, compEnd]
    have hrawAt : ∀ j, lo ≤ j → j ≤ last → entry ((payload.drop (4 + (m.chunkCount + lo) * 8)).take
        (4 + (m.chunkCount + last + 1) * 8 - (4 + (m.chunkCount + lo) * 8))) lo j =
          rawEnd payload m.chunkCount j := by
      intro j hj hj'
      have hat : 4 + (m.chunkCount + lo) * 8 + (j - lo) * 8 = 4 + (m.chunkCount + j) * 8 := by omega
      rw [entry, field_span (by omega), hat, rawEnd]
    generalize (payload.drop (4 + lo * 8)).take (4 + (last + 1) * 8 - (4 + lo * 8)) = compSpan
      at hcomp hcompAt
    generalize (payload.drop (4 + (m.chunkCount + lo) * 8)).take
      (4 + (m.chunkCount + last + 1) * 8 - (4 + (m.chunkCount + lo) * 8)) = rawSpan at hraw hrawAt
    have hstart : (if first = 0 then 0 else entry compSpan lo lo) =
        endBefore (compEnd payload) first := by
      rw [endBefore]
      split
      case isTrue => rfl
      case isFalse hpos => rw [hlo, hcompAt _ le_rfl (by omega)]
    have hspan := @readPayloadSpan_ok pin m parts hparts payload hcut hlen
      (4 + m.chunkCount * 16 + endBefore (compEnd payload) first)
      (4 + m.chunkCount * 16 + compEnd payload last) (by omega) (by omega)
    rw [Nat.add_sub_add_left, ← List.drop_drop] at hspan
    generalize hbytes : ((payload.drop (4 + m.chunkCount * 16)).drop
      (endBefore (compEnd payload) first)).take
        (compEnd payload last - endBefore (compEnd payload) first) = bytes at hspan
    have hspans : Spans payload m.chunkCount first last lo compSpan rawSpan bytes
        (endBefore (compEnd payload) first) :=
      { comp := hcompAt, raw := hrawAt, lo := hlo.symm, bytes := hbytes.symm, body := hbody }
    have hword := m.payloadLen.isLt
    have hloop := @rangeFrom_ok m payload start stop first last lo _ _ _ _ hspans hstop hl.symm
      (last + 1 - first) first le_rfl (by omega) _ _ hfrom (by rw [List.length_drop]; omega) le_rfl out
    have hskip : (vss.flatten.take stop).drop start =
        ((vss.drop first).flatten.take (stop - first * chunkRows)).drop (start - first * chunkRows) := by
      have hfull := hchunks.length_take (j := first) (by omega) (by rw [Nat.zero_add]; omega)
      have hsplit : vss.flatten = (vss.take first).flatten ++ (vss.drop first).flatten := by
        rw [← List.flatten_append, List.take_append_drop]
      rw [hsplit, cut_append (Or.inl hfull), List.drop_eq_nil_of_le, List.nil_append]
      rw [List.length_take, hfull]
      omega
    rw [hskip, ← hloop]
    dsimp only
    rw [hlo, hcomp]
    refine (exec_liftExcept_bind _ _ _).trans ?_
    rw [hraw]
    refine (exec_liftExcept_bind _ _ _).trans ?_
    rw [hstart, hcompAt last (by omega) le_rfl, Checked.word_of_lt (by omega)]
    refine (exec_liftExcept_bind _ _ _).trans ?_
    rw [if_neg (by omega), Checked.word_of_lt (by omega)]
    refine (exec_liftExcept_bind _ _ _).trans ?_
    rw [hspan]
    exact exec_liftExcept_bind _ _ _

/-- Strings come back from the payload made of them, and a payload is made of them when no
chunk is above the cap. A ranged read of any rows gives the strings of the whole read
there, and what is refused leaves the vectors as they were. -/
theorem blob_round_trip (values : Slice Bytes 16)
    (hcount : divCeil values.items.length chunkRows < 2 ^ 32) :
    ((∃ payload total, encodePayload values = .ok (payload, total) ∧ ∀ out : Out,
        (decodePayload payload values.items.length total).exec out =
          (.ok (), out.pushAll values.items)) ↔
      ∀ chunk ∈ chunks chunkRows values.items, (zipOf chunk).length ≤ maxChunkRaw) ∧
    (∀ (crc32c : Bytes → BitVec 32) (pin : Pin) (m : SegmentMeta) (out full : Out),
      (readBlobSegment crc32c pin m).exec out = (.ok (), full) →
        ∃ read : List Bytes, read.length = m.valueCount.toNat ∧ full = out.pushAll read ∧
          ∀ (checks : Bool) (start stop : ℕ) (out' : Out), start ≤ stop → stop ≤ read.length →
            (readBlobRange pin m checks start stop).exec out' =
              (.ok (), out'.pushAll ((read.take stop).drop start))) ∧
    (∀ (payload : Bytes) (valueCount uncompressedBytes : ℕ) (out out' : Out) (e : ZuError),
      (decodePayload payload valueCount uncompressedBytes).exec out = (.error e, out') →
        out' = out) ∧
    (∀ (crc32c : Bytes → BitVec 32) (pin : Pin) (m : SegmentMeta) (out out' : Out) (e : ZuError),
      (readBlobSegment crc32c pin m).exec out = (.error (.refused e), out') → out' = out) ∧
    ∀ (pin : Pin) (m : SegmentMeta) (checks : Bool) (start stop : ℕ) (out out' : Out) (e : ZuError),
      (readBlobRange pin m checks start stop).exec out = (.error (.refused e), out') → out' = out := by
  have hchunks : (chunks chunkRows values.items).length < 2 ^ 32 := by
    rw [length_chunks_eq]
    exact hcount
  refine ⟨⟨?_, ?_⟩, ?_, ?_, ?_, ?_⟩
  · rintro ⟨payload, total, hencode, -⟩
    obtain ⟨enc, l, hencoded⟩ := encoded_of_ok hencode
    exact hencoded.small
  · intro hsmall
    obtain ⟨⟨payload, total⟩, hencode⟩ := exists_encoded none hsmall hchunks
    obtain ⟨enc, l, hencoded⟩ := encoded_of_ok hencode
    exact ⟨payload, total, hencode, hencoded.decodes_iff.2 hcount⟩
  · intro crc32c pin m out full hread
    obtain ⟨hstructural, parts, payload, vss, hparts, hcut, hlen, hholds, hfull⟩ :=
      readBlobSegment_ok hread
    have hrows : vss.flatten.length = m.valueCount.toNat := hholds.length_flatten
    refine ⟨vss.flatten, hrows, hfull, ?_⟩
    intro checks start stop out' hle hstop
    rw [hrows] at hstop
    exact readBlobRange_ok hstructural hparts hcut hlen hholds checks hle hstop out'
  · exact fun _ _ _ _ _ _ h => decodePayload_error h
  · exact fun _ _ _ _ _ _ h => readBlobSegment_refused h
  · exact fun _ _ _ _ _ _ _ _ h => readBlobRange_refused h

def twoStrings : Slice Bytes 16 := ⟨[[122, 117], []], by decide⟩

theorem blob_round_trip_two : ∃ payload total, encodePayload twoStrings = .ok (payload, total) ∧
    ∀ out : Out, (decodePayload payload 2 total).exec out = (.ok (), out.pushAll [[122, 117], []]) :=
  (blob_round_trip twoStrings (by decide)).1.2 (by decide)

def longString : Slice Bytes 16 where
  items := [List.replicate (2 ^ 24) 0]
  fits := by
    rw [List.length_singleton]
    decide

theorem longString_refused : encodePayload longString =
    .error (.refused (.invalidArgument s!"fullzip chunk exceeds the {maxChunkRaw} byte raw cap")) := by
  have hchunks : chunks chunkRows longString.items = [longString.items] := by
    have hne : longString.items ≠ [] := List.cons_ne_nil _ _
    rw [chunks_of_ne_nil chunkRows_pos hne]
    rfl
  have hzip : ChunkEncoder.zipChunk [] longString.items =
      .error (.invalidArgument s!"fullzip chunk exceeds the {maxChunkRaw} byte raw cap") := by
    rw [longString, ChunkEncoder.zipChunk, List.length_replicate, if_pos (by decide)]
  rw [encodePayload, encodePayloadWith, hchunks, List.foldlM_cons, pushChunk, hzip]
  rfl

end FullZip

end Zu.Segment
