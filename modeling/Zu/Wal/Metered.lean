import Zu.Wal.Exact
import Zu.Lib.Fallible

/-!
# Reading a payload in place

The reader of a payload is a buffer and a position in it: a slice past the buffer's end
is a panic, and so is a position past it. Each list is made with room asked for up
front. Here the reader is run with these, and the panics and the room are what can be
seen of it: it returns or fails as the reader over what is left does, never panics, and
never asks for room for more elements than the buffer has bytes.
-/

namespace Zu.Wal

open Lib

/-- How a run in place ends when it does not return. -/
inductive Fault
  | refused (e : ZuError)
  | panicked

/-- `Reader`, and how many elements each list made so far asked for room for. -/
structure Cursor where
  buf : Bytes
  pos : ℕ
  asked : List ℕ

/-- A reader in place. -/
abbrev Metered (α : Type) := Fallible Fault Cursor α

namespace Metered

/-- `remaining`: a subtraction. -/
def remaining : Metered ℕ := do
  let c ← get
  if c.buf.length < c.pos then throw .panicked
  return c.buf.length - c.pos

def refuse {α : Type} (detail : String) : Metered α := throw (.refused (corrupt detail))

/-- `bytes`: the slice is checked against the end of the buffer. -/
def bytes (len : ℕ) : Metered Bytes := do
  let left ← remaining
  if left < len then refuse s!"payload wants {len} bytes with {left} left"
  let c ← get
  if c.buf.length < c.pos + len then throw .panicked
  set { c with pos := c.pos + len }
  return (c.buf.drop c.pos).take len

def u8 : Metered ℕ := do return fromLe (← bytes 1)

def u32 : Metered ℕ := do return fromLe (← bytes 4)

def u64 : Metered UInt64 := do return UInt64.ofNat (fromLe (← bytes 8))

def rest : Metered Bytes := do
  let c ← get
  if c.buf.length < c.pos then throw .panicked
  set { c with pos := c.buf.length }
  return c.buf.drop c.pos

/-- `Vec::with_capacity(count.min(r.remaining() / size))`. -/
def reserve (count size : ℕ) : Metered Unit := do
  let left ← remaining
  modify fun c => { c with asked := min count (left / size) :: c.asked }

/-- Runs a reader `n` times. -/
def times {α : Type} (x : Metered α) : ℕ → Metered (List α)
  | 0 => pure []
  | n + 1 => do
      let a ← x
      let as ← times x n
      return a :: as

def u64s (count : ℕ) : Metered (List UInt64) := do
  reserve count 8
  times u64 count

def str : Metered Bytes := do bytes (← u32)

def values : Metered WalValues := do
  let tag ← u8
  let count ← u32
  match tag with
  | 0 => do
      reserve count 8
      return .int (← times u64 count)
  | 1 => do
      reserve count 4
      return .str (← times str count)
  | 2 => return .null (UInt32.ofNat count)
  | other => refuse s!"unknown value tag {other}"

def column : Metered WalColumn := do
  let col ← u32
  let values ← values
  return { col := UInt32.ofNat col, values }

def columnFor (count : ℕ) : Metered WalColumn := do
  let col ← u32
  let values ← values
  if values.len ≠ count then
    refuse s!"rel insert carries {count} edges but {values.len} values for column {col}"
  return { col := UInt32.ofNat col, values }

/-- `WalRecord::decode` up to the check of what is left. -/
def fields (kind : ℕ) : Metered WalRecord :=
  match kind with
  | 1 => return .txnBegin
  | 2 => do
      let table ← u32
      let colCount ← u32
      reserve colCount 9
      let cols ← times column colCount
      return .nodeInsert (UInt32.ofNat table) cols
  | 3 => do
      let rel ← u32
      let count ← u32
      let src ← u64s count
      let dst ← u64s count
      let colCount ← u32
      reserve colCount 9
      let cols ← times (columnFor count) colCount
      return .relInsert (UInt32.ofNat rel) src dst cols
  | 4 => do
      let table ← u32
      let group ← u64
      let col ← u32
      let count ← u32
      let offsets ← u64s count
      let values ← values
      if values.len ≠ offsets.length then
        refuse s!"update carries {offsets.length} offsets but {values.len} values"
      return .update (UInt32.ofNat table) group (UInt32.ofNat col) offsets values
  | 5 => do
      let table ← u32
      let count ← u32
      return .delete (UInt32.ofNat table) (← u64s count)
  | 6 => do return .ddlCatalog (← rest)
  | 7 => return .txnCommit
  | 8 => do
      let table ← u32
      let count ← u32
      return .ingestRef (UInt32.ofNat table) (← u64s count)
  | 9 => return .checkpointNote
  | 10 => do
      let rel ← u32
      let count ← u32
      let src ← u64s count
      let dst ← u64s count
      return .relDelete (UInt32.ofNat rel) src dst
  | 11 => do
      let rel ← u32
      let col ← u32
      let count ← u32
      let src ← u64s count
      let dst ← u64s count
      let values ← values
      if values.len ≠ count then
        refuse s!"rel update names {count} edges but carries {values.len} values"
      return .relUpdate (UInt32.ofNat rel) (UInt32.ofNat col) src dst values
  | 12 => do
      let table ← u32
      let add ← u64
      let remove ← u64
      let count ← u32
      if add &&& remove ≠ 0 then
        refuse s!"label update both sets and clears {hex (add &&& remove)}"
      return .labelUpdate (UInt32.ofNat table) (← u64s count) add remove
  | other => refuse s!"unknown record kind {other}"

/-- `WalRecord::decode`. The text counts what is left after the rest was taken. -/
def record (kind : ℕ) : Metered WalRecord := do
  let rec_ ← fields kind
  let left ← rest
  if left ≠ [] then
    refuse s!"{← remaining} trailing payload bytes after kind {kind}"
  return rec_

end Metered

/-- The position is in the buffer, and no list asked for room for more elements than
the buffer has bytes. -/
structure Cursor.Safe (c : Cursor) : Prop where
  pos_le : c.pos ≤ c.buf.length
  asked_le : ∀ n ∈ c.asked, n ≤ c.buf.length

def Cursor.left (c : Cursor) : Bytes := c.buf.drop c.pos

/-- How a run in place ends that does what a reader over what is left does. -/
def Outcome.Matches {α : Type} (r : Except ZuError (α × Bytes)) (out : Except Fault α × Cursor) :
    Prop :=
  match r with
  | .ok (a, rest) => out.1 = .ok a ∧ out.2.left = rest
  | .error e => out.1 = .error (.refused e)

/-- From a safe cursor the run does what the reader does, over the same buffer, and its
cursor stays safe. -/
def Follows {α : Type} (x : Metered α) (p : PayloadReader α) : Prop :=
  ∀ c : Cursor, c.Safe → (x.exec c).2.Safe ∧ (x.exec c).2.buf = c.buf ∧
    Outcome.Matches (p c.left) (x.exec c)

namespace Follows

variable {α β : Type}

theorem pure (a : α) : Follows (Pure.pure a) (Pure.pure a) :=
  fun _ hc => ⟨hc, rfl, rfl, rfl⟩

theorem bind {x : Metered α} {p : PayloadReader α} {f : α → Metered β} {g : α → PayloadReader β}
    (hx : Follows x p) (hf : ∀ a, Follows (f a) (g a)) : Follows (x >>= f) (p >>= g) := by
  intro c hc
  obtain ⟨hsafe, hbuf, hmatch⟩ := hx c hc
  rw [exec_bind]
  change _ ∧ _ ∧ Outcome.Matches (p c.left >>= fun out => g out.1 out.2) _
  cases hrun : x.exec c with
  | mk r c' =>
      rw [hrun] at hsafe hbuf hmatch
      cases hread : p c.left with
      | error e =>
          rw [hread] at hmatch
          obtain rfl : r = .error (.refused e) := hmatch
          exact ⟨hsafe, hbuf, rfl⟩
      | ok out =>
          rw [hread] at hmatch
          obtain ⟨rfl, hleft⟩ : r = .ok out.1 ∧ c'.left = out.2 := hmatch
          obtain ⟨hsafe', hbuf', hmatch'⟩ := hf out.1 c' hsafe
          rw [hleft] at hmatch'
          exact ⟨hsafe', hbuf'.trans hbuf, hmatch'⟩

theorem refuse (detail : String) :
    Follows (Metered.refuse detail : Metered α) (throw (corrupt detail)) :=
  fun _ hc => ⟨hc, rfl, rfl⟩

theorem check {b : Prop} [Decidable b] {detail : String} {f : PUnit → Metered β}
    {g : PUnit → PayloadReader β} (h : Follows (f ⟨⟩) (g ⟨⟩)) :
    Follows (if b then Metered.refuse detail >>= f else f ⟨⟩)
      (if b then throw (corrupt detail) >>= g else g ⟨⟩) := by
  split
  · exact fun _ hc => ⟨hc, rfl, rfl⟩
  · exact h

theorem times {x : Metered α} {p : PayloadReader α} (h : Follows x p) (n : ℕ) :
    Follows (Metered.times x n) (readN p n) := by
  induction n with
  | zero => exact Follows.pure []
  | succ n ih => exact h.bind fun a => ih.bind fun as => Follows.pure (a :: as)

end Follows

namespace Cursor.Safe

variable {c : Cursor} (h : c.Safe)

include h

theorem not_past : ¬ c.buf.length < c.pos := Nat.not_lt.2 h.pos_le

theorem exec_remaining : Metered.remaining.exec c = (.ok c.left.length, c) := by
  rw [Metered.remaining, exec_bind, exec_get]
  simp only [if_neg h.not_past]
  rw [exec_pure, left, List.length_drop]

end Cursor.Safe

namespace Metered

theorem follows_reserve {α : Type} {x : Metered α} {p : PayloadReader α} (h : Follows x p)
    (count : ℕ) {size : ℕ} : Follows (reserve count size >>= fun _ => x) p := by
  intro c hc
  let c' : Cursor := { c with asked := min count (c.left.length / size) :: c.asked }
  have hrun : (reserve count size).exec c = (.ok (), c') := by
    rw [reserve, exec_bind, hc.exec_remaining]
    rfl
  have hsafe : c'.Safe := by
    refine ⟨hc.pos_le, List.forall_mem_cons.2 ⟨?_, hc.asked_le⟩⟩
    calc min count (c.left.length / size) ≤ c.left.length := (min_le_right _ _).trans (Nat.div_le_self _ _)
      _ ≤ c.buf.length := by
        rw [Cursor.left, List.length_drop]
        exact Nat.sub_le _ _
  rw [exec_bind, hrun]
  exact h c' hsafe

theorem follows_bytes (len : ℕ) : Follows (bytes len) (readBytes len) := by
  intro c hc
  rw [bytes, exec_bind, hc.exec_remaining, readBytes]
  simp only
  by_cases hlen : c.left.length < len
  · rw [if_pos hlen, if_pos hlen]
    exact ⟨hc, rfl, rfl⟩
  · rw [if_neg hlen, if_neg hlen]
    have hdrop : c.left.length = c.buf.length - c.pos := List.length_drop
    have hend : ¬ c.buf.length < c.pos + len := by
      have := hc.pos_le
      omega
    rw [exec_bind, exec_get]
    simp only [if_neg hend]
    refine ⟨⟨Nat.not_lt.1 hend, hc.asked_le⟩, rfl, rfl, ?_⟩
    exact (List.drop_drop).symm

theorem follows_u8 : Follows u8 readU8 :=
  (follows_bytes 1).bind fun _ => Follows.pure _

theorem follows_u32 : Follows u32 readU32 :=
  (follows_bytes 4).bind fun _ => Follows.pure _

theorem follows_u64 : Follows u64 readU64 :=
  (follows_bytes 8).bind fun _ => Follows.pure _

theorem follows_rest : Follows rest fun bs => .ok (bs, []) := by
  intro c hc
  rw [rest, exec_bind, exec_get]
  simp only [if_neg hc.not_past]
  exact ⟨⟨le_rfl, hc.asked_le⟩, rfl, rfl, List.drop_length⟩

theorem follows_u64s (count : ℕ) : Follows (u64s count) (readU64s count) :=
  follows_reserve (follows_u64.times count) count

theorem follows_str : Follows str readStr :=
  follows_u32.bind fun len => follows_bytes len

theorem follows_values : Follows values WalValues.decode := by
  refine follows_u8.bind fun tag => follows_u32.bind fun count => ?_
  split
  · exact follows_reserve ((follows_u64.times count).bind fun _ => Follows.pure _) count
  · exact follows_reserve ((follows_str.times count).bind fun _ => Follows.pure _) count
  · exact Follows.pure _
  · first
    | exact Follows.refuse _
    | split
      all_goals first | contradiction | exact Follows.refuse _

theorem follows_column : Follows column WalColumn.decode :=
  follows_u32.bind fun _ => follows_values.bind fun _ => Follows.pure _

theorem follows_columnFor (count : ℕ) : Follows (columnFor count) (WalColumn.decodeFor count) :=
  follows_u32.bind fun _ => follows_values.bind fun _ => Follows.check (Follows.pure _)

theorem follows_fields (kind : ℕ) : Follows (fields kind) (WalRecord.decodeFields kind) := by
  unfold fields WalRecord.decodeFields
  split
  · exact Follows.pure _
  · exact follows_u32.bind fun _ => follows_u32.bind fun colCount =>
      follows_reserve ((follows_column.times colCount).bind fun _ => Follows.pure _) colCount
  · exact follows_u32.bind fun _ => follows_u32.bind fun count =>
      (follows_u64s count).bind fun _ => (follows_u64s count).bind fun _ =>
        follows_u32.bind fun colCount =>
          follows_reserve (((follows_columnFor count).times colCount).bind fun _ =>
            Follows.pure _) colCount
  · exact follows_u32.bind fun _ => follows_u64.bind fun _ => follows_u32.bind fun _ =>
      follows_u32.bind fun count => (follows_u64s count).bind fun _ =>
        follows_values.bind fun _ => Follows.check (Follows.pure _)
  · exact follows_u32.bind fun _ => follows_u32.bind fun count =>
      (follows_u64s count).bind fun _ => Follows.pure _
  · exact follows_rest.bind fun _ => Follows.pure _
  · exact Follows.pure _
  · exact follows_u32.bind fun _ => follows_u32.bind fun count =>
      (follows_u64s count).bind fun _ => Follows.pure _
  · exact Follows.pure _
  · exact follows_u32.bind fun _ => follows_u32.bind fun count =>
      (follows_u64s count).bind fun _ => (follows_u64s count).bind fun _ => Follows.pure _
  · exact follows_u32.bind fun _ => follows_u32.bind fun _ => follows_u32.bind fun count =>
      (follows_u64s count).bind fun _ => (follows_u64s count).bind fun _ =>
        follows_values.bind fun _ => Follows.check (Follows.pure _)
  · exact follows_u32.bind fun _ => follows_u64.bind fun _ => follows_u64.bind fun _ =>
      follows_u32.bind fun count => Follows.check
        ((follows_u64s count).bind fun _ => Follows.pure _)
  · first
    | exact Follows.refuse _
    | split
      all_goals first | contradiction | exact Follows.refuse _

/-- A record is read in place as it is read: once the rest was taken there is nothing
left to count. -/
theorem follows_record (kind : ℕ) : Follows (record kind) (WalRecord.decode kind) := by
  refine (follows_fields kind).bind fun r => ?_
  intro c hc
  obtain ⟨hsafe, hbuf, hvalue, hleft⟩ := follows_rest c hc
  rw [exec_bind]
  cases hrun : rest.exec c with
  | mk v c' =>
      rw [hrun] at hsafe hbuf hvalue hleft
      obtain rfl : v = .ok c.left := hvalue
      by_cases hnil : c.left = []
      · simp only [hnil, ne_eq, not_true_eq_false, if_false]
        exact ⟨hsafe, hbuf, rfl, hleft⟩
      · simp only [ne_eq, hnil, not_false_eq_true, if_true]
        have hrest : c'.left = [] := hleft
        rw [exec_bind, hsafe.exec_remaining, hrest]
        refine ⟨hsafe, hbuf, ?_⟩
        change Outcome.Matches ((if ¬ c.left = [] then
          (throw (corrupt s!"0 trailing payload bytes after kind {kind}") >>= fun _ => Pure.pure r)
            else Pure.pure r : PayloadReader WalRecord) []) _
        rw [if_pos hnil]
        rfl

end Metered

end Zu.Wal
