import Zu.Wal.Log

/-!
# What the log holds

`Holds done bs w` says that the bodies `done` are frames in the file of `w`, that
`bs` were appended after them and nothing else was: some of `bs` are frames in
the file too, the others are staged in the buffer, and what is in the file past
the frames is a prefix of the buffer that a failed write left there, then zeros.
Every operation keeps this, whether it returns or fails, so what a failed commit
leaves behind is exactly the frames it appended.
-/

namespace Zu.Wal

open Lib

variable {crc : Bytes → UInt32}

/-- The log with the bodies `pre` written and `suf` staged, of which a failed
write put down `k` bytes. -/
structure HoldsAs (crc : Bytes → UInt32) (pre suf : List Bytes) (k m : ℕ)
    (w : Log) : Prop where
  len_eq : w.len = (framed crc pre).length
  buf_eq : w.buf = framed crc suf
  bytes_eq : w.file.bytes =
    framed crc pre ++ ((framed crc suf).take k ++ zeros m)
  torn_le : k ≤ (framed crc suf).length
  room : w.len + k ≤ w.reserved
  given : w.reserved ≤ w.file.bytes.length

/-- The bodies `done` are in the file and `bs` were appended after them. -/
def Holds (crc : Bytes → UInt32) (done bs : List Bytes) (w : Log) : Prop :=
  ∃ mid suf k m, mid ++ suf = bs ∧ HoldsAs crc (done ++ mid) suf k m w

/-- The file of `w` is `a` and zeros, and the rest of `w` is that of `w₀`. -/
def Padded (w₀ : Log) (a : Bytes) (floor : ℕ) (w : Log) : Prop :=
  (∃ m, w.file.bytes = a ++ zeros m ∧ floor ≤ a.length + m) ∧
    ∃ f, w = { w₀ with file := f }

theorem onFile_triple {α : Type} {x : Fallible ZuError FaultyFile α}
    {P E : FaultyFile → Prop} {Q : α → FaultyFile → Prop} (h : Triple P x Q E)
    (w₀ : Log) :
    Triple (fun w => P w.file ∧ ∃ f, w = { w₀ with file := f }) (onFile x)
      (fun a w => Q a w.file ∧ ∃ f, w = { w₀ with file := f })
      (fun w => E w.file ∧ ∃ f, w = { w₀ with file := f }) := by
  rintro w ⟨hP, f, rfl⟩
  obtain ⟨hok, herr⟩ := h f hP
  cases hx : x.exec f with
  | mk r g =>
      have hexec : (onFile x).exec { w₀ with file := f } =
          (r, { w₀ with file := g }) := by
        have hx' : x f = (r, g) := hx
        simp only [Fallible.exec, onFile, hx']
      rw [hexec]
      refine ⟨fun a t ht => ?_, fun e t ht => ?_⟩ <;> cases ht
      · exact ⟨hok a g hx, g, rfl⟩
      · exact ⟨herr e g hx, g, rfl⟩

/-- A chunk of zeros past the data keeps the file padded. -/
theorem writeZeros_triple (w₀ : Log) (a : Bytes) {pos : ℕ} (n floor : ℕ)
    (ha : a.length ≤ pos) :
    Triple (fun w => Padded w₀ a (max floor pos) w)
      (onFile (FaultyFile.writeAllAt .io (zeros n) pos))
      (fun _ w => Padded w₀ a (max floor (pos + n)) w)
      (Padded w₀ a floor) := by
  rintro w ⟨⟨m, hbytes, hm⟩, hrest⟩
  have hpos : pos ≤ a.length + m := (le_max_right _ _).trans hm
  have hfloor : floor ≤ a.length + m := (le_max_left _ _).trans hm
  obtain ⟨hok, herr⟩ := onFile_triple
    (FaultyFile.writeAllAt_triple ZuError.io (zeros n) pos (a ++ zeros m)) w₀ w
    ⟨hbytes, hrest⟩
  refine ⟨fun u t ht => ?_, fun e t ht => ?_⟩
  · obtain ⟨hout, hrest⟩ := hok u t ht
    rw [overwrite_zeros n ha hpos] at hout
    exact ⟨⟨_, hout, by omega⟩, hrest⟩
  · obtain ⟨⟨j, hout⟩, hrest⟩ := herr e t ht
    rw [take_zeros, overwrite_zeros _ ha hpos] at hout
    exact ⟨⟨_, hout, by omega⟩, hrest⟩

/-- Zeroing room past the data keeps the file padded. -/
theorem eraseFrom_triple (w₀ : Log) (a : Bytes) (fuel floor : ℕ) {pos stop : ℕ}
    (ha : a.length ≤ pos) (hfuel : stop ≤ pos + fuel) :
    Triple (Padded w₀ a (max floor pos)) (eraseFrom fuel pos stop)
      (fun _ => Padded w₀ a (max floor stop)) (Padded w₀ a floor) := by
  induction fuel generalizing pos with
  | zero =>
      refine Triple.pure fun w hw => ?_
      obtain ⟨⟨m, hbytes, hm⟩, hrest⟩ := hw
      exact ⟨⟨m, hbytes, by omega⟩, hrest⟩
  | succ fuel ih =>
      refine Triple.ite (fun hlt => ?_) (fun hge => ?_)
      · have hspan : 1 ≤ min (stop - pos) reserveMax := by
          rw [reserveMax]
          omega
        exact (writeZeros_triple w₀ a _ floor ha).bind fun _ =>
          ih (by omega) (by omega)
      · refine Triple.pure fun w hw => ?_
        obtain ⟨⟨m, hbytes, hm⟩, hrest⟩ := hw
        exact ⟨⟨m, hbytes, by omega⟩, hrest⟩

theorem le_growTo (fuel need stop step : ℕ) :
    stop ≤ growTo fuel need stop step := by
  induction fuel generalizing stop step with
  | zero => exact le_rfl
  | succ fuel ih =>
      rw [growTo]
      split_ifs with hlt
      · exact (Nat.le_add_right _ _).trans (ih _ _)
      · exact le_rfl

theorem need_le_growTo {fuel need stop step : ℕ} (hstep : 1 ≤ step)
    (hfuel : need ≤ stop + fuel) : need ≤ growTo fuel need stop step := by
  induction fuel generalizing stop step with
  | zero => simpa [growTo] using hfuel
  | succ fuel ih =>
      rw [growTo]
      split_ifs with hlt
      · refine ih ?_ (by omega)
        rw [reserveMax]
        omega
      · omega

/-- A reservation changes nothing the log holds, and ends with room for `need`
bytes when it returns. -/
theorem reserve_triple (pre suf : List Bytes) (k need : ℕ) :
    Triple (fun w => ∃ m, HoldsAs crc pre suf k m w) (reserve need)
      (fun _ w => (∃ m, HoldsAs crc pre suf k m w) ∧ w.len + need ≤ w.reserved)
      (fun w => ∃ m, HoldsAs crc pre suf k m w) := by
  refine Triple.readState fun w₀ hw₀ => ?_
  obtain ⟨m₀, h₀⟩ := hw₀
  set a := framed crc pre ++ (framed crc suf).take k with ha
  have halen : a.length = w₀.len + k := by
    rw [ha, List.length_append, List.length_take, h₀.len_eq,
      min_eq_left h₀.torn_le]
  have hbytes : w₀.file.bytes = a ++ zeros m₀ := by
    rw [h₀.bytes_eq, ha, List.append_assoc]
  have hroom := h₀.room
  have hgiven := h₀.given
  rw [hbytes, List.length_append, length_zeros] at hgiven
  -- the log is what it was wherever a step of the reservation stops
  have hback : ∀ w, Padded w₀ a w₀.reserved w → ∃ m, HoldsAs crc pre suf k m w := by
    rintro w ⟨⟨m, hm, hle⟩, f, rfl⟩
    refine ⟨m, h₀.len_eq, h₀.buf_eq, ?_, h₀.torn_le, h₀.room, ?_⟩
    · rw [hm, ha, List.append_assoc]
    · rw [hm, List.length_append, length_zeros]
      exact hle
  refine Triple.ite (fun hfits => ?_) (fun hgrow => ?_)
  · refine Triple.pure fun w hw => ?_
    subst hw
    exact ⟨⟨m₀, h₀⟩, hfits⟩
  · set stop := growTo (w₀.len + need) (w₀.len + need) w₀.reserved
      (max reserveMin (min w₀.reserved reserveMax)) with hstop
    have hreach : w₀.len + need ≤ stop := by
      refine need_le_growTo ?_ (Nat.le_add_left _ _)
      rw [reserveMin]
      omega
    have hgrown : w₀.reserved ≤ stop := le_growTo _ _ _ _
    refine Triple.bind (Q := fun _ => Padded w₀ a stop)
      ((eraseFrom_triple w₀ a _ w₀.reserved (by omega) (by omega)).weaken
        (fun w hw => ?_) (fun _ w hw => ?_) hback) fun _ => ?_
    · subst hw
      exact ⟨⟨m₀, hbytes, by omega⟩, _, rfl⟩
    · obtain ⟨⟨m, hm, hle⟩, hrest⟩ := hw
      exact ⟨⟨m, hm, by omega⟩, hrest⟩
    refine Triple.bind (Q := fun _ => Padded w₀ a stop) ?_ fun _ => ?_
    · rintro w ⟨⟨m, hm, hle⟩, hrest⟩
      obtain ⟨hok, herr⟩ := onFile_triple
        (FaultyFile.sync_triple ZuError.io (a ++ zeros m)) w₀ w ⟨hm, hrest⟩
      refine ⟨fun u t ht => ?_, fun e t ht => ?_⟩
      · obtain ⟨hout, hrest⟩ := hok u t ht
        exact ⟨⟨m, hout, hle⟩, hrest⟩
      · obtain ⟨hout, hrest⟩ := herr e t ht
        exact hback t ⟨⟨m, hout, by omega⟩, hrest⟩
    · refine Triple.update fun w hw => ?_
      obtain ⟨⟨m, hm, hle⟩, f, rfl⟩ := hw
      refine ⟨⟨m, h₀.len_eq, h₀.buf_eq, ?_, h₀.torn_le, ?_, ?_⟩, hreach⟩
      · rw [hm, ha, List.append_assoc]
      · exact h₀.room.trans hgrown
      · rw [hm, List.length_append, length_zeros]
        exact hle

/-- A flush writes the whole buffer out, or leaves it staged when it fails. -/
theorem flush_triple (done bs : List Bytes) :
    Triple (Holds crc done bs) flush (fun _ w => Holds crc done bs w ∧ w.buf = [])
      (Holds crc done bs) := by
  refine Triple.readState fun w₀ hw₀ => ?_
  refine Triple.ite (fun hempty => ?_) (fun _ => ?_)
  · refine Triple.pure fun w hw => ?_
    subst hw
    exact ⟨hw₀, hempty⟩
  obtain ⟨mid, suf, k, m₀, hbs, h₀⟩ := hw₀
  set pre := done ++ mid with hpre
  refine Triple.bind
    (Q := fun _ w => (∃ m, HoldsAs crc pre suf k m w) ∧
      w.len + w₀.buf.length ≤ w.reserved)
    ((reserve_triple pre suf k w₀.buf.length).weaken (fun w hw => ?_)
      (fun _ w hw => hw) (fun w hw => ?_)) fun _ => ?_
  · subst hw
    exact ⟨m₀, h₀⟩
  · obtain ⟨m, hm⟩ := hw
    exact ⟨mid, suf, k, m, hbs, hm⟩
  refine Triple.bind
    (Q := fun _ w => w.buf = framed crc suf ∧ w.len = (framed crc pre).length ∧
      w.len + w.buf.length ≤ w.reserved ∧ ∃ m, w.file.bytes =
        framed crc pre ++ (framed crc suf ++ zeros m) ∧
          w.reserved ≤ w.file.bytes.length) ?_ fun _ => ?_
  · rintro w ⟨⟨m, hm⟩, hroom⟩
    have hlen : w.len = (framed crc pre).length := hm.len_eq
    have hgiven := hm.given
    have htorn := hm.torn_le
    rw [h₀.buf_eq] at hroom ⊢
    rw [hm.bytes_eq, List.length_append, List.length_append, List.length_take,
      length_zeros, min_eq_left hm.torn_le] at hgiven
    have hwrite : w₀.len = (framed crc pre).length := h₀.len_eq
    rw [hwrite]
    obtain ⟨hok, herr⟩ := onFile_triple
      (FaultyFile.writeAllAt_triple ZuError.io (framed crc suf)
        (framed crc pre).length w.file.bytes) w w ⟨rfl, w.file, rfl⟩
    refine ⟨fun u t ht => ?_, fun e t ht => ?_⟩
    · obtain ⟨hout, f, rfl⟩ := hok u t ht
      rw [hm.bytes_eq, overwrite_append, List.drop_append,
        List.drop_eq_nil_of_le (by rw [List.length_take]; omega), drop_zeros,
        List.nil_append, List.append_assoc] at hout
      refine ⟨hm.buf_eq, hlen, by rw [hm.buf_eq]; exact hroom, _, hout, ?_⟩
      rw [hout, List.length_append, List.length_append, length_zeros,
        List.length_take, min_eq_left hm.torn_le]
      change w.reserved ≤ _
      omega
    · -- what the write put down is a prefix of the buffer again
      obtain ⟨⟨n, hout⟩, f, rfl⟩ := herr e t ht
      obtain ⟨j, m', hsame, hj, hjk, hlonger⟩ :=
        take_append_drop_take (framed crc suf) n k m hm.torn_le
      rw [hm.bytes_eq, overwrite_append, List.append_assoc, hsame] at hout
      have hroom' := hm.room
      have hreserved : w.len + (framed crc suf).length ≤ w.reserved := hroom
      refine ⟨mid, suf, j, m', hbs, hm.len_eq, hm.buf_eq, hout, hj, ?_, ?_⟩
      · change w.len + j ≤ w.reserved
        omega
      · rw [hout, List.length_append, List.length_append, List.length_take,
          length_zeros, min_eq_left hj]
        change w.reserved ≤ _
        omega
  · refine Triple.update fun w hw => ?_
    obtain ⟨hbuf, hlen, hroom, m, hbytes, hgiven⟩ := hw
    have hall : framed crc (done ++ (mid ++ suf)) = framed crc pre ++ framed crc suf := by
      rw [← List.append_assoc, framed_append]
    refine ⟨⟨mid ++ suf, [], 0, m, by rw [List.append_nil, hbs], ?_⟩, rfl⟩
    constructor
    · rw [Log.flushed, hlen, hbuf, hall, List.length_append]
    · rfl
    · rw [framed_nil, List.take_nil, List.nil_append, hall, List.append_assoc]
      exact hbytes
    · exact Nat.zero_le _
    · exact hroom
    · exact hgiven

/-- An append adds its frame, whether the spill it may cause succeeds or not. -/
theorem append_triple (done bs : List Bytes) (epoch : Epoch) (r : WalRecord) :
    Triple (Holds crc done bs) (append crc epoch r)
      (fun _ => Holds crc done (bs ++ [body epoch r]))
      (Holds crc done (bs ++ [body epoch r])) := by
  refine Triple.bind (Q := fun _ => Holds crc done (bs ++ [body epoch r]))
    (Triple.update fun w hw => ?_) fun _ => Triple.readState fun w₀ hw₀ => ?_
  · obtain ⟨mid, suf, k, m, hbs, hw⟩ := hw
    have hsuf : framed crc (suf ++ [body epoch r]) =
        framed crc suf ++ frame crc (body epoch r) := by
      rw [framed_append, framed_cons, framed_nil, List.append_nil]
    refine ⟨mid, suf ++ [body epoch r], k, m, by rw [← hbs, List.append_assoc],
      hw.len_eq, ?_, ?_, ?_, hw.room, hw.given⟩
    · rw [Log.stageFrame, hw.buf_eq, hsuf]
    · rw [hsuf, List.take_append_of_le_length hw.torn_le]
      exact hw.bytes_eq
    · rw [hsuf, List.length_append]
      exact hw.torn_le.trans (Nat.le_add_right _ _)
  · refine Triple.ite (fun _ => ?_) (fun _ => ?_)
    · exact (flush_triple done _).weaken (fun w hw => hw ▸ hw₀) (fun _ w hw => hw.1)
        fun w hw => hw
    · exact Triple.pure fun w hw => hw ▸ hw₀

/-- A commit that is staged has every frame in the file; one that fails has
appended its commit frame all the same. -/
theorem stageCommit_triple (done bs : List Bytes) (epoch : Epoch) :
    Triple (Holds crc done bs) (stageCommit crc epoch)
      (fun _ w => Holds crc done (bs ++ [body epoch .txnCommit]) w ∧ w.buf = [])
      (Holds crc done (bs ++ [body epoch .txnCommit])) := by
  refine (append_triple done bs epoch .txnCommit).bind fun _ =>
    (flush_triple done _).bind fun _ => Triple.readState fun w hw => ?_
  exact Triple.pure fun w' hw' => hw' ▸ hw

/-- No call on the log's file fails from here on. -/
def Reliable (w : Log) : Prop := w.file.Reliable

/-- A program that returns when no call on the file fails. -/
abbrev NeverFails {α : Type} (x : WalM α) : Prop :=
  Triple Reliable x (fun _ => Reliable) fun _ => False

theorem onFile_reliable {α : Type} {x : Fallible ZuError FaultyFile α}
    (h : Triple FaultyFile.Reliable x (fun _ => FaultyFile.Reliable) fun _ => False) :
    NeverFails (onFile x) := by
  intro w hw
  obtain ⟨hok, herr⟩ := onFile_triple h w w ⟨hw, w.file, rfl⟩
  exact ⟨fun a t ht => (hok a t ht).1, fun e t ht => (herr e t ht).1⟩

theorem eraseFrom_reliable (fuel pos stop : ℕ) : NeverFails (eraseFrom fuel pos stop) := by
  induction fuel generalizing pos with
  | zero => exact Triple.pure fun _ hw => hw
  | succ fuel ih =>
      exact Triple.ite
        (fun _ => (onFile_reliable (FaultyFile.writeAllAt_reliable _ _ _)).bind fun _ => ih _)
        fun _ => Triple.pure fun _ hw => hw

theorem reserve_reliable (need : ℕ) : NeverFails (reserve need) := by
  refine Triple.readState fun w hw => ?_
  refine Triple.ite (fun _ => Triple.pure fun t ht => ht ▸ hw) fun _ => ?_
  exact ((eraseFrom_reliable _ _ _).bind fun _ =>
    (onFile_reliable (FaultyFile.sync_reliable _)).bind fun _ =>
      Triple.update fun _ ht => ht).weaken (fun t ht => ht ▸ hw) (fun _ _ ht => ht)
        fun _ ht => ht

theorem flush_reliable : NeverFails flush := by
  refine Triple.readState fun w hw => ?_
  refine Triple.ite (fun _ => Triple.pure fun t ht => ht ▸ hw) fun _ => ?_
  exact ((reserve_reliable _).bind fun _ =>
    (onFile_reliable (FaultyFile.writeAllAt_reliable _ _ _)).bind fun _ =>
      Triple.update fun _ ht => ht).weaken (fun t ht => ht ▸ hw) (fun _ _ ht => ht)
        fun _ ht => ht

theorem append_reliable (epoch : Epoch) (r : WalRecord) :
    NeverFails (append crc epoch r) := by
  refine Triple.bind (Q := fun _ => Reliable) (Triple.update fun _ hw => hw) fun _ =>
    Triple.readState fun w hw => ?_
  exact Triple.ite
    (fun _ => flush_reliable.weaken (fun t ht => ht ▸ hw) (fun _ _ ht => ht) fun _ ht => ht)
    fun _ => Triple.pure fun t ht => ht ▸ hw

theorem stageCommit_reliable (epoch : Epoch) : NeverFails (stageCommit crc epoch) :=
  (append_reliable epoch .txnCommit).bind fun _ => flush_reliable.bind fun _ =>
    Triple.readState fun _ hw => Triple.pure fun _ ht => ht ▸ hw

/-- Once the buffer is empty everything that was appended is in the file. -/
theorem Holds.all_done {done bs : List Bytes} {w : Log} (h : Holds crc done bs w)
    (hbuf : w.buf = []) : Holds crc (done ++ bs) [] w := by
  obtain ⟨mid, suf, k, m, hbs, hw⟩ := h
  have hsuf : suf = [] := by
    have hlen := length_le_framed crc suf
    rw [← hw.buf_eq, hbuf] at hlen
    exact List.length_eq_zero_iff.1 (Nat.le_zero.1 hlen)
  subst hsuf
  rw [List.append_nil] at hbs
  subst hbs
  exact ⟨[], [], k, m, rfl, by rwa [List.append_nil]⟩

end Zu.Wal
