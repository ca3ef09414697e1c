import Zu.Wal.LogHolds

/-!
# Opening the log again

A restart scans the file, and the scan may end in a frame that a failed write put
down a part of. `TornFrameFails` is what the checksum is relied on for: the
frame, cut short and filled up with zeros, does not verify. Then the scan finds
the bodies in the file and at most some whole frames of what was staged after
them.
-/

namespace Zu.Wal

open Lib

variable {crc : Bytes → UInt32}

/-- A frame of which the first `j` bytes were written over zeros. -/
def tornFrame (crc : Bytes → UInt32) (b : Bytes) (j : ℕ) : Bytes :=
  (frame crc b).take j ++ zeros ((frame crc b).length - j)

/-- A torn frame does not verify, unless what is missing of it is zeros. -/
def TornFrameFails (crc : Bytes → UInt32) (b : Bytes) : Prop :=
  ∀ j < (frame crc b).length,
    tornFrame crc b j = frame crc b ∨ nextFrame crc (tornFrame crc b j) 0 = none

instance (crc : Bytes → UInt32) (b : Bytes) : Decidable (TornFrameFails crc b) := by
  unfold TornFrameFails
  infer_instance

/-- What a scan finds where a torn frame starts is no longer than the frame. -/
theorem length_le_of_torn {b c rest : Bytes} {j m : ℕ} (hb : b.length < 2 ^ 32)
    (hc : c.length < 2 ^ 32)
    (h : (frame crc b).take j ++ zeros m = frame crc c ++ rest) :
    c.length ≤ b.length := by
  have hread := (take_frame crc hc rest).1
  have hread' := (take_frame crc hb []).1
  rw [List.append_nil] at hread'
  rw [← h, List.take_append, take_zeros, List.take_take, min_comm, ← List.take_take] at hread
  rw [← hread, ← hread']
  exact fromLe_take_append_zeros_le _ _ _

/-- Two fillings of one prefix agree as far as both go. -/
theorem filled_prefix {t f rest : Bytes} {m n : ℕ}
    (h : t ++ zeros m = f ++ rest) (hlen : f.length ≤ t.length + n) :
    ∃ rest', t ++ zeros n = f ++ rest' := by
  have hm : f.length ≤ t.length + m := by
    have hlens := congrArg List.length h
    rw [List.length_append, List.length_append, length_zeros] at hlens
    omega
  have htake : (t ++ zeros n).take f.length = f := by
    have hf : (t ++ zeros m).take f.length = f := by rw [h, List.take_left]
    have hsame : (t ++ zeros n).take f.length = (t ++ zeros m).take f.length := by
      rw [List.take_append, List.take_append, take_zeros, take_zeros]
      congr 2
      omega
    rw [hsame, hf]
  have hsplit := List.take_append_drop f.length (t ++ zeros n)
  rw [htake] at hsplit
  exact ⟨_, hsplit.symm⟩

/-- A scan past whole frames stops at a torn one, or takes it as whole when what
is missing of it is zeros. -/
theorem nextFrame_torn {b : Bytes} {j : ℕ} (hb : BodyFits b)
    (hj : j < (frame crc b).length) (htorn : TornFrameFails crc b) (pre : Bytes)
    (m : ℕ) :
    nextFrame crc (pre ++ ((frame crc b).take j ++ zeros m)) pre.length = none ∨
      ∃ m', (frame crc b).take j ++ zeros m = frame crc b ++ zeros m' := by
  cases hnext : nextFrame crc (pre ++ ((frame crc b).take j ++ zeros m)) pre.length with
  | none => exact Or.inl rfl
  | some found =>
      obtain ⟨c, next⟩ := found
      obtain ⟨hc, hdrop, -⟩ := nextFrame_some hnext
      rw [List.drop_left] at hdrop
      set rest := (pre ++ ((frame crc b).take j ++ zeros m)).drop next
      have hle := length_le_of_torn hb.2 hc.2 hdrop
      have hframes : (frame crc c).length ≤ ((frame crc b).take j).length +
          ((frame crc b).length - j) := by
        rw [List.length_take, length_frame, length_frame] at *
        omega
      obtain ⟨rest', hfill⟩ := filled_prefix hdrop hframes
      refine Or.inr ?_
      rcases htorn j hj with hwhole | hfails
      · -- the frame is whole: what is missing of it is zeros
        rw [tornFrame] at hwhole
        have hsame := hwhole.symm.trans hfill
        have hb4 := (take_frame crc hb.2 []).1
        rw [List.append_nil, hsame, (take_frame crc hc.2 rest').1] at hb4
        have hlens := congrArg List.length hdrop
        rw [List.length_append, List.length_append, length_zeros, List.length_take,
          length_frame, length_frame] at hlens
        rw [length_frame] at hj
        have hm : (frame crc b).length - j ≤ m := by
          rw [length_frame]
          omega
        refine ⟨m - ((frame crc b).length - j), ?_⟩
        rw [← hwhole, List.append_assoc, ← zeros_add, hwhole, Nat.add_sub_cancel' hm]
      · have hsome := nextFrame_frame crc [] hc rest'
        rw [List.nil_append, ← hfill] at hsome
        rw [tornFrame, show (0 : ℕ) = ([] : Bytes).length from rfl, hsome] at hfails
        cases hfails

/-- The whole frames at the start of a cut run of frames. -/
theorem exists_whole_frames (pre suf : List Bytes) (k m : ℕ)
    (hfits : ∀ b ∈ suf, BodyFits b) (htorn : ∀ b ∈ suf, TornFrameFails crc b) :
    ∃ whole tail, whole <+: suf ∧
      framed crc pre ++ ((framed crc suf).take k ++ zeros m) =
        framed crc (pre ++ whole) ++ tail ∧
      nextFrame crc (framed crc (pre ++ whole) ++ tail)
        (framed crc (pre ++ whole)).length = none := by
  induction suf generalizing pre k with
  | nil =>
      refine ⟨[], zeros m, List.prefix_rfl, ?_, nextFrame_zeros _ m⟩
      rw [framed_nil, List.take_nil, List.nil_append, List.append_nil]
  | cons b suf ih =>
      have hb := hfits b List.mem_cons_self
      have hrest : ∀ c ∈ suf, c ∈ b :: suf := fun c hc => List.mem_cons_of_mem b hc
      rcases Nat.lt_or_ge k (frame crc b).length with hcut | hwhole
      · have htake : (framed crc (b :: suf)).take k = (frame crc b).take k := by
          rw [framed_cons, List.take_append_of_le_length hcut.le]
        rw [htake]
        rcases nextFrame_torn hb hcut (htorn b List.mem_cons_self) (framed crc pre) m
          with hstop | ⟨m', hfill⟩
        · refine ⟨[], (frame crc b).take k ++ zeros m, List.nil_prefix, ?_, ?_⟩
          · rw [List.append_nil]
          · rwa [List.append_nil]
        · have hpre : framed crc (pre ++ [b]) = framed crc pre ++ frame crc b := by
            rw [framed_append, framed_cons, framed_nil, List.append_nil]
          refine ⟨[b], zeros m', by simp, ?_, nextFrame_zeros _ m'⟩
          rw [hfill, hpre, List.append_assoc]
      · obtain ⟨whole, tail, hinit, hbytes, hstop⟩ :=
          ih (pre ++ [b]) (k - (frame crc b).length) (fun c hc => hfits c (hrest c hc))
            (fun c hc => htorn c (hrest c hc))
        have hpre : pre ++ [b] ++ whole = pre ++ b :: whole := by simp
        have htake : (framed crc (b :: suf)).take k =
            frame crc b ++ (framed crc suf).take (k - (frame crc b).length) := by
          rw [framed_cons, List.take_append, List.take_of_length_le hwhole]
        have hone : framed crc (pre ++ [b]) = framed crc pre ++ frame crc b := by
          rw [framed_append, framed_cons, framed_nil, List.append_nil]
        rw [hpre] at hbytes hstop
        refine ⟨b :: whole, tail, List.cons_prefix_cons.2 ⟨rfl, hinit⟩, ?_, hstop⟩
        rw [htake, ← hbytes, hone]
        simp only [List.append_assoc]

/-- Where no call fails, `erase` puts zeros over its span. -/
theorem eraseFrom_exec (w : Log) (fuel : ℕ) {a x : Bytes} {stop : ℕ}
    (ha : a.length ≤ stop) (hin : stop ≤ a.length + x.length)
    (hfuel : stop ≤ a.length + fuel) :
    (eraseFrom fuel a.length stop).exec { w with file := { bytes := a ++ x, plan := [] } } =
      (.ok (), { w with file :=
        { bytes := a ++ (zeros (stop - a.length) ++ x.drop (stop - a.length)),
          plan := [] } }) := by
  induction fuel generalizing a x with
  | zero =>
      have hstop : stop - a.length = 0 := by omega
      rw [hstop]
      rfl
  | succ fuel ih =>
      rcases ha.lt_or_eq with hlt | heq
      · set span := min (stop - a.length) reserveMax with hspan
        have hpos : 1 ≤ span := by
          rw [hspan, reserveMax]
          omega
        have hle : span ≤ stop - a.length := min_le_left _ _
        have hstep : (eraseFrom (fuel + 1) a.length stop).exec
              { w with file := { bytes := a ++ x, plan := [] } } =
            (eraseFrom fuel (a.length + span) stop).exec
              { w with file :=
                { bytes := overwrite (a ++ x) a.length (zeros span), plan := [] } } := by
          rw [eraseFrom, if_pos hlt]
          rfl
        have hlen : (a ++ zeros span).length = a.length + span := by
          rw [List.length_append, length_zeros]
        rw [hstep, overwrite_append, length_zeros, ← hlen]
        rw [ih (by omega) (by rw [List.length_drop]; omega) (by omega), hlen]
        have hsplit : zeros (stop - a.length) =
            zeros span ++ zeros (stop - (a.length + span)) := by
          rw [← zeros_add]
          congr 1
          omega
        have hdrop : (x.drop span).drop (stop - (a.length + span)) =
            x.drop (stop - a.length) := by
          rw [List.drop_drop]
          congr 1
          omega
        rw [hdrop, hsplit]
        simp only [List.append_assoc]
      · have hstop : stop - a.length = 0 := by omega
        rw [eraseFrom, if_neg (by omega), hstop]
        rfl

/-- The log as a new process opens it, with no call failing. -/
def restart (crc : Bytes → UInt32) (w : Log) : Except ZuError Log :=
  openOn crc { bytes := w.file.bytes, plan := [] }

/-- Opening a file of frames and a tail that is not a frame gives a log of those
frames. -/
theorem openOn_framed {bs : List Bytes} {tail : Bytes} (hfits : ∀ b ∈ bs, BodyFits b)
    (hstop : nextFrame crc (framed crc bs ++ tail) (framed crc bs).length = none) :
    ∃ w m, openOn crc { bytes := framed crc bs ++ tail, plan := [] } = .ok w ∧
      HoldsAs crc bs [] 0 m w := by
  have hscan := scan_framed hfits hstop
  set w₀ : Log :=
    { file := { bytes := framed crc bs ++ tail, plan := [] },
      commits := Marks.new (framed crc bs).length, len := (framed crc bs).length,
      reserved := (framed crc bs ++ tail).length, buf := [] } with hw₀
  have hroom : (framed crc bs).length ≤ (framed crc bs ++ tail).length := by
    rw [List.length_append]
    omega
  by_cases hdirty : tail.any (· ≠ 0) = true
  · have herase := eraseFrom_exec w₀ ((framed crc bs ++ tail).length - (framed crc bs).length)
      hroom (x := tail) (by rw [List.length_append]) (by omega)
    have hopen : openOn crc { bytes := framed crc bs ++ tail, plan := [] } =
        .ok { w₀ with file :=
          { bytes := framed crc bs ++ zeros tail.length, plan := [] } } := by
      rw [openOn]
      simp only [hscan, List.drop_left, hdirty, if_true]
      rw [exec_bind, erase, herase]
      have hspan : (framed crc bs ++ tail).length - (framed crc bs).length = tail.length := by
        rw [List.length_append]
        omega
      rw [hspan, List.drop_length, List.append_nil]
      rfl
    refine ⟨_, tail.length, hopen, rfl, rfl, ?_, Nat.zero_le _, hroom, ?_⟩
    · rw [framed_nil, List.take_nil, List.nil_append]
    · simp [hw₀]
  · have htail : tail = zeros tail.length := by
      refine List.eq_replicate_iff.2 ⟨rfl, fun c hc => ?_⟩
      by_contra hne
      exact hdirty (List.any_eq_true.2 ⟨c, hc, decide_eq_true hne⟩)
    have hopen : openOn crc { bytes := framed crc bs ++ tail, plan := [] } = .ok w₀ := by
      rw [openOn]
      simp only [hscan, List.drop_left, if_neg hdirty]
      rfl
    refine ⟨w₀, tail.length, hopen, rfl, rfl, ?_, Nat.zero_le _, hroom, le_rfl⟩
    rw [framed_nil, List.take_nil, List.nil_append, ← htail]

/-- A restart finds what is in the file, and at most some whole frames of what was
staged after it. -/
theorem restart_spec {pre suf : List Bytes} {k m : ℕ} {w : Log}
    (hw : HoldsAs crc pre suf k m w) (hpre : ∀ b ∈ pre, BodyFits b)
    (hsuf : ∀ b ∈ suf, BodyFits b) (htorn : ∀ b ∈ suf, TornFrameFails crc b) :
    ∃ whole w' m', whole <+: suf ∧ restart crc w = .ok w' ∧
      HoldsAs crc (pre ++ whole) [] 0 m' w' := by
  obtain ⟨whole, tail, hwhole, hbytes, hstop⟩ :=
    exists_whole_frames pre suf k m hsuf htorn
  have hfits : ∀ b ∈ pre ++ whole, BodyFits b := by
    intro b hb
    rcases List.mem_append.1 hb with hb | hb
    · exact hpre b hb
    · exact hsuf b (hwhole.subset hb)
  obtain ⟨w', m', hopen, hw'⟩ := openOn_framed hfits hstop
  refine ⟨whole, w', m', hwhole, ?_, hw'⟩
  rw [restart, hw.bytes_eq, hbytes, hopen]

theorem replay_eq {bs suf : List Bytes} {k m : ℕ} {w : Log}
    (hw : HoldsAs crc bs suf k m w) (hfits : ∀ b ∈ bs, BodyFits b) {β : Type}
    (floor : Epoch) (sink : β → Epoch × WalRecord → Except ZuError β) (init : β) :
    replay crc w floor sink init =
      Prod.snd <$> bs.foldlM (replayBody (noteFloor floor bs) sink) ([], init) := by
  have hlen : ¬ w.file.bytes.length < w.len := by
    have hroom := hw.room
    have hgiven := hw.given
    omega
  have htake : w.file.bytes.take w.len = framed crc bs ++ zeros 0 := by
    rw [hw.bytes_eq, hw.len_eq, List.take_left, zeros_zero, List.append_nil]
  rw [replay, if_neg hlen, htake, scan_framed_zeros hfits]
  cases h : bs.foldlM (replayBody (noteFloor floor bs) sink) ([], init) with
  | error e => simp only [h]; rfl
  | ok st => simp only [h]; rfl

end Zu.Wal
