import Zu.Lib.Run

/-!
# The sync a commit waits on

`Marks` is the state behind the lock of `Commits`: how far the log is written
(`staged`) and how far it is durable (`durable`). Each critical section of
`staged`, `reset` and `sync_through` is one function on `Marks`; between them a
thread holds no lock, so the system below interleaves the sections of any number
of threads.

`Ghost` is not in the source. It records what the threads and the disk really
did: which staged commits a finished sync covers, which were cut out of the log,
and how much of the log a finished sync covers.
-/

namespace Zu.Wal

/-- How far the log is written and how far it is durable. -/
structure Marks where
  staged : ℕ
  durable : ℕ
  running : Option ℕ
  failed : Bool
  waiting : ℕ
  group : ℕ
  cost : ℕ
  deriving DecidableEq, Repr

/-- The share of a sync period a leader spends gathering writers. -/
def gatherShare : ℕ := 8

/-- The most it spends whatever the share comes to, in nanoseconds. -/
def gatherCap : ℕ := 500 * 1000

namespace Marks

/-- The marks of a log opened at `len` bytes: what was there before this process
opened it is already on disk. -/
def new (len : ℕ) : Marks :=
  { staged := len, durable := len, running := none, failed := false,
    waiting := 0, group := 0, cost := 0 }

/-- `Commits::staged`: the log has been written out to `len` bytes. -/
def stagedTo (m : Marks) (len : ℕ) : Marks :=
  { m with staged := max m.staged len }

/-- `Commits::reset`: the log is `len` bytes long, and `synced` says whether the
cut that made it that length is on the platter. -/
def reset (m : Marks) (len : ℕ) (synced : Bool) : Marks :=
  { m with
    staged := len
    durable := if synced then len else 0
    failed := if synced then false else m.failed }

/-- Whether the log owes nothing. -/
def settled (m : Marks) : Bool :=
  !m.failed && decide (m.staged ≤ m.durable)

/-- How long a leader holds its flush back, in nanoseconds. -/
def gather (m : Marks) : ℕ :=
  if m.group < 2 ∨ m.cost = 0 then 0 else min (m.cost / gatherShare) gatherCap

/-- The test at the top of the loop of `sync_through`: nothing is left to wait
for. -/
def reached (m : Marks) (need : ℕ) : Bool :=
  !m.failed && (decide (need ≤ m.durable) || decide (m.staged < need))

/-- What a turn of the loop of `sync_through` decides with the lock held. -/
inductive Turn
  | returns
  | waits
  | gathers
  | leads (target : ℕ)
  deriving DecidableEq, Repr

/-- Counts a commit among those the log owes something to, once. -/
def enlist (m : Marks) (counted : Bool) : Marks :=
  { m with waiting := if counted then m.waiting else m.waiting + 1 }

/-- Takes a commit that was counted out of the count. -/
def discharge (m : Marks) (counted : Bool) : Marks :=
  { m with waiting := if counted then m.waiting - 1 else m.waiting }

/-- Claims the flush as far as the log is staged. -/
def claim (m : Marks) : Marks := { m with running := some m.staged }

/-- One turn of the loop of `sync_through`, up to where it lets go of the lock. -/
def syncTurn (m : Marks) (need : ℕ) (counted : Bool) : Marks × Turn :=
  if m.reached need then
    (m.discharge counted, .returns)
  else if (m.enlist counted).running.isSome then
    (m.enlist counted, .waits)
  else if (m.enlist counted).gather ≠ 0 then
    ((m.enlist counted).claim, .gathers)
  else
    ((m.enlist counted).claim, .leads (m.enlist counted).staged)

/-- The leader picks how far to sync once the pause is over. -/
def lead (m : Marks) : Marks × ℕ := (m.claim, m.staged)

/-- What the leader writes down when its sync has come back. -/
def finish (m : Marks) (target : ℕ) (synced : Bool) (took : ℕ) : Marks :=
  let m := { m with running := none }
  let m :=
    if synced then
      { m with
        durable := max m.durable target
        failed := false
        cost := if m.cost = 0 then took else (m.cost + took) / 2
        group := m.waiting }
    else
      { m with failed := true }
  { m with waiting := m.waiting - 1 }

@[simp] theorem stagedTo_staged (m : Marks) (len : ℕ) :
    (m.stagedTo len).staged = max m.staged len := rfl

@[simp] theorem stagedTo_durable (m : Marks) (len : ℕ) :
    (m.stagedTo len).durable = m.durable := rfl

@[simp] theorem reset_staged (m : Marks) (len : ℕ) (synced : Bool) :
    (m.reset len synced).staged = len := rfl

@[simp] theorem reset_durable (m : Marks) (len : ℕ) (synced : Bool) :
    (m.reset len synced).durable = if synced then len else 0 := rfl

@[simp] theorem lead_fst_staged (m : Marks) : m.lead.1.staged = m.staged := rfl

@[simp] theorem lead_fst_durable (m : Marks) :
    m.lead.1.durable = m.durable := rfl

@[simp] theorem lead_snd (m : Marks) : m.lead.2 = m.staged := rfl

@[simp] theorem finish_staged (m : Marks) (target : ℕ) (synced : Bool)
    (took : ℕ) : (m.finish target synced took).staged = m.staged := by
  cases synced <;> rfl

@[simp] theorem finish_durable (m : Marks) (target : ℕ) (synced : Bool)
    (took : ℕ) :
    (m.finish target synced took).durable =
      if synced then max m.durable target else m.durable := by
  cases synced <;> rfl

theorem syncTurn_marks (m : Marks) (need : ℕ) (counted : Bool) :
    (m.syncTurn need counted).1.staged = m.staged ∧
      (m.syncTurn need counted).1.durable = m.durable := by
  unfold syncTurn
  split_ifs <;> exact ⟨rfl, rfl⟩

/-- A turn that returns found the log durable through `need`, or shorter than
it. -/
theorem syncTurn_returns {m : Marks} {need : ℕ} {counted : Bool}
    (h : (m.syncTurn need counted).2 = .returns) :
    need ≤ m.durable ∨ m.staged < need := by
  unfold syncTurn at h
  split_ifs at h with hreached
  have hmarks := (Bool.and_eq_true_iff.1 hreached).2
  simpa using hmarks

/-- A turn that leads syncs as far as the log is staged. -/
theorem syncTurn_leads {m : Marks} {need target : ℕ} {counted : Bool}
    (h : (m.syncTurn need counted).2 = .leads target) : target = m.staged := by
  unfold syncTurn at h
  split_ifs at h
  exact (Turn.leads.inj h).symm

end Marks

/-- A thread, numbered. -/
abbrev Thread := ℕ

/-- Where a thread is between two critical sections. -/
inductive Pc
  | idle
  /-- It has staged a commit that ends at `need` and not called `sync_through`. -/
  | holds (need : ℕ)
  /-- It is about to take the lock at the top of the loop. -/
  | top (need : ℕ) (counted : Bool)
  /-- It is in `done.wait`. -/
  | asleep (need : ℕ)
  /-- It has claimed the flush and is pausing for the stragglers. -/
  | gathering (need : ℕ)
  /-- It has picked its target and not issued the sync. -/
  | leading (need target : ℕ)
  /-- Its `sync_data` is running. -/
  | syncing (need target : ℕ)
  /-- Its `sync_data` has come back and the lock is not retaken. -/
  | synced (need target : ℕ) (ok : Bool)
  /-- `sync_through(need)` has returned. -/
  | returned (need : ℕ) (ok : Bool)
  deriving DecidableEq, Repr

/-- The commit a thread has staged and not yet been answered on. -/
def Pc.need? : Pc → Option ℕ
  | .idle => none
  | .holds n | .top n _ | .asleep n | .gathering n => some n
  | .leading n _ | .syncing n _ | .synced n _ _ | .returned n _ => some n

/-- The target of a sync that has not failed and is not written down yet. -/
def Pc.inFlight? : Pc → Option ℕ
  | .leading _ g | .syncing _ g | .synced _ g true => some g
  | _ => none

/-- What the disk and the threads really did. -/
structure Ghost where
  /-- `seen l t`: the bytes of `t`'s commit were in the file before the sync `l`
  is running began. -/
  seen : Thread → Thread → Bool
  /-- A sync that began after the bytes of `t`'s commit were in the file has
  completed. -/
  covered : Thread → Bool
  /-- The log has been cut below the end of `t`'s commit since it was staged. -/
  folded : Thread → Bool
  /-- How many bytes of the present log were in the file when the sync `l` is
  running began. -/
  cover : Thread → ℕ
  /-- How many bytes of the present log a completed sync covers. -/
  platter : ℕ

/-- The marks, every thread and the ghost record. -/
structure Sys where
  marks : Marks
  pc : Thread → Pc
  ghost : Ghost

/-- A log opened at `len` bytes with no thread in `sync_through`. -/
def Sys.new (len : ℕ) : Sys where
  marks := Marks.new len
  pc := fun _ => .idle
  ghost :=
    { seen := fun _ _ => false
      covered := fun _ => false
      folded := fun _ => false
      cover := fun _ => 0
      platter := len }

/-- The atomic steps. `stage`, `spill` and `reset` are the writer's, the others
are those of `sync_through`. -/
inductive Act
  /-- The frames of a commit of thread `t` are written and `staged(len)` says
  so. -/
  | stage (t : Thread) (len : ℕ)
  /-- A staging buffer that filled before its commit is written out. -/
  | spill (len : ℕ)
  | reset (len : ℕ) (synced : Bool)
  | call (t : Thread)
  | turn (t : Thread)
  | wake (t : Thread)
  | gathered (t : Thread)
  | syncBegin (t : Thread)
  | syncEnd (t : Thread) (ok : Bool)
  | finish (t : Thread) (took : ℕ)
  deriving DecidableEq, Repr

/-- Sets one value of a function. -/
def upd {β : Type*} (f : Thread → β) (t : Thread) (b : β) : Thread → β :=
  fun u => if u = t then b else f u

@[simp] theorem upd_self {β : Type*} (f : Thread → β) (t : Thread) (b : β) :
    upd f t b t = b := by simp [upd]

theorem upd_eq_self {β : Type*} (f : Thread → β) (t : Thread) : upd f t (f t) = f := by
  funext u
  by_cases h : u = t <;> simp [upd, h]

theorem upd_of_ne {β : Type*} {f : Thread → β} {t u : Thread} {b : β}
    (h : u ≠ t) : upd f t b u = f u := by simp [upd, h]

/-- Where a turn of the loop leaves its thread. -/
def Pc.afterTurn (need : ℕ) : Marks.Turn → Pc
  | .returns => .returned need true
  | .waits => .asleep need
  | .gathers => .gathering need
  | .leads target => .leading need target

/-- The commit of `t` starts over: no sync has covered it, no cut has taken it,
and no running sync began after it. -/
def Ghost.stage (g : Ghost) (t : Thread) : Ghost :=
  { g with
    seen := fun l u => if u = t then false else g.seen l u
    covered := upd g.covered t false
    folded := upd g.folded t false }

/-- The log is cut to `len`. A cut that synced itself is a completed sync of what
it left. -/
def Ghost.reset (g : Ghost) (pc : Thread → Pc) (len : ℕ) (synced : Bool) :
    Ghost :=
  { g with
    covered := fun t => g.covered t || (synced && (pc t).need?.isSome)
    folded := fun t => g.folded t || (pc t).need?.any fun n => decide (len < n)
    cover := fun l => min (g.cover l) len
    platter := if synced then len else min g.platter len }

/-- The sync `l` issues begins: it covers what is in the file now. -/
def Ghost.syncBegin (g : Ghost) (pc : Thread → Pc) (staged : ℕ) (l : Thread) :
    Ghost :=
  { g with
    seen := upd g.seen l fun t => (pc t).need?.isSome
    cover := upd g.cover l staged }

/-- The sync of `l` completes. -/
def Ghost.syncOk (g : Ghost) (l : Thread) : Ghost :=
  { g with
    covered := fun t => g.covered t || g.seen l t
    platter := max g.platter (g.cover l) }

/-- One atomic step, `none` where it is not enabled. A commit writes at least its
commit frame past what is staged, and a cut never makes the log longer. -/
def step (s : Sys) : Act → Option Sys
  | .stage t len =>
      match s.pc t with
      | .idle | .returned _ _ =>
          if s.marks.staged < len then
            some { marks := s.marks.stagedTo len, pc := upd s.pc t (.holds len),
                   ghost := s.ghost.stage t }
          else none
      | _ => none
  | .spill len => some { s with marks := s.marks.stagedTo len }
  | .reset len synced =>
      if len ≤ s.marks.staged then
        some { s with marks := s.marks.reset len synced,
                      ghost := s.ghost.reset s.pc len synced }
      else none
  | .call t =>
      match s.pc t with
      | .holds need => some { s with pc := upd s.pc t (.top need false) }
      | _ => none
  | .turn t =>
      match s.pc t with
      | .top need counted =>
          let out := s.marks.syncTurn need counted
          some { s with marks := out.1,
                        pc := upd s.pc t (Pc.afterTurn need out.2) }
      | _ => none
  | .wake t =>
      match s.pc t with
      | .asleep need => some { s with pc := upd s.pc t (.top need true) }
      | _ => none
  | .gathered t =>
      match s.pc t with
      | .gathering need =>
          some { s with marks := s.marks.lead.1,
                        pc := upd s.pc t (.leading need s.marks.lead.2) }
      | _ => none
  | .syncBegin t =>
      match s.pc t with
      | .leading need target =>
          some { s with pc := upd s.pc t (.syncing need target),
                        ghost := s.ghost.syncBegin s.pc s.marks.staged t }
      | _ => none
  | .syncEnd t ok =>
      match s.pc t with
      | .syncing need target =>
          some { s with pc := upd s.pc t (.synced need target ok),
                        ghost := if ok then s.ghost.syncOk t else s.ghost }
      | _ => none
  | .finish t took =>
      match s.pc t with
      | .synced need target ok =>
          some { s with marks := s.marks.finish target ok took,
                        pc := upd s.pc t (.returned need ok) }
      | _ => none

/-- What group commit promises in one state: the durable mark is below the
staged one and below what syncs have covered, and a call that returned `Ok` has
its bytes covered by a sync that began after they were written, or the log was
cut below them since. -/
def Safe (s : Sys) : Prop :=
  s.marks.durable ≤ s.marks.staged ∧
    s.marks.durable ≤ s.ghost.platter ∧
      ∀ t need, s.pc t = .returned need true →
        s.ghost.covered t = true ∨ s.ghost.folded t = true

/-- No cut goes below the target of a sync that is still in flight. -/
def CutsBehindLeaders (s : Sys) : Act → Prop
  | .reset len _ => ∀ l target, (s.pc l).inFlight? = some target → target ≤ len
  | _ => True

end Zu.Wal
