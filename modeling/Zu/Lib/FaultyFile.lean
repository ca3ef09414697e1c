import Zu.Lib.Fallible
import Zu.Lib.Bytes

/-!
# A file whose calls may fail

A file is its bytes and a plan that says how its next calls turn out. A write
that fails has left some prefix of its data behind; a sync that fails has left
nothing. Once the plan is used up every call succeeds, so quantifying over plans
quantifies over every way the calls of a program may fail.
-/

namespace Zu

namespace Lib

/-- How one call on a file turns out. -/
inductive Outcome
  | done
  /-- The call fails; a write has put down its first `written` bytes. -/
  | fails (written : ℕ)
  deriving DecidableEq, Repr

/-- A file and what its next calls do. -/
structure FaultyFile where
  bytes : Bytes
  plan : List Outcome
  deriving DecidableEq, Repr

namespace FaultyFile

variable {ε : Type}

/-- How the next call turns out, and the file with that call taken off the
plan. -/
def next (f : FaultyFile) : Outcome × FaultyFile :=
  match f.plan with
  | [] => (.done, f)
  | o :: plan => (o, { f with plan })

/-- Writes `data` at `pos`, or a prefix of it. -/
def writeAllAt (err : ε) (data : Bytes) (pos : ℕ) : Fallible ε FaultyFile Unit :=
  fun f =>
    match f.next with
    | (.done, g) => (.ok (), { g with bytes := overwrite g.bytes pos data })
    | (.fails n, g) =>
        (.error err, { g with bytes := overwrite g.bytes pos (data.take n) })

/-- Waits for what was written to be durable. -/
def sync (err : ε) : Fallible ε FaultyFile Unit := fun f =>
  match f.next with
  | (.done, g) => (.ok (), g)
  | (.fails _, g) => (.error err, g)

@[simp] theorem next_bytes (f : FaultyFile) : f.next.2.bytes = f.bytes := by
  unfold next
  cases f.plan <;> rfl

/-- A write leaves its data, or a prefix of it when it fails. -/
theorem writeAllAt_triple (err : ε) (data : Bytes) (pos : ℕ) (bs : Bytes) :
    Triple (fun f => f.bytes = bs) (writeAllAt err data pos)
      (fun _ f => f.bytes = overwrite bs pos data)
      (fun f => ∃ n, f.bytes = overwrite bs pos (data.take n)) := by
  intro f hf
  have hnext := f.next_bytes
  cases hout : f.next with
  | mk o g =>
      rw [hout, hf] at hnext
      cases o with
      | done =>
          refine ⟨fun _ t ht => ?_, fun e t ht => ?_⟩ <;>
            simp only [Fallible.exec, writeAllAt, hout] at ht <;> cases ht
          rw [← hnext]
      | fails n =>
          refine ⟨fun _ t ht => ?_, fun e t ht => ?_⟩ <;>
            simp only [Fallible.exec, writeAllAt, hout] at ht <;> cases ht
          exact ⟨n, by rw [← hnext]⟩

theorem sync_triple (err : ε) (bs : Bytes) :
    Triple (fun f => f.bytes = bs) (sync err) (fun _ f => f.bytes = bs)
      (fun f => f.bytes = bs) := by
  intro f hf
  have hnext := f.next_bytes
  cases hout : f.next with
  | mk o g =>
      rw [hout, hf] at hnext
      cases o with
      | done =>
          refine ⟨fun _ t ht => ?_, fun e t ht => ?_⟩ <;>
            simp only [Fallible.exec, sync, hout] at ht <;> cases ht
          exact hnext
      | fails n =>
          refine ⟨fun _ t ht => ?_, fun e t ht => ?_⟩ <;>
            simp only [Fallible.exec, sync, hout] at ht <;> cases ht
          exact hnext

/-- No call fails from here on. -/
def Reliable (f : FaultyFile) : Prop := f.plan = []

theorem writeAllAt_reliable (err : ε) (data : Bytes) (pos : ℕ) :
    Triple Reliable (writeAllAt err data pos) (fun _ => Reliable) fun _ => False := by
  rintro ⟨bytes, plan⟩ rfl
  refine ⟨fun _ t ht => ?_, fun e t ht => ?_⟩ <;> cases ht
  rfl

theorem sync_reliable (err : ε) :
    Triple Reliable (sync err) (fun _ => Reliable) fun _ => False := by
  rintro ⟨bytes, plan⟩ rfl
  refine ⟨fun _ t ht => ?_, fun e t ht => ?_⟩ <;> cases ht
  rfl

end FaultyFile

end Lib

end Zu

/-!
## A disk that loses power

Writes wait until a sync makes them durable. When the power goes, each write that
waited is lost, whole or torn, whatever became of the others: `Image` relates what
was durable and what waited to what the disk holds afterwards. A call may also
fail, and a failed write waits like any other, since nothing says how far it got.
-/

namespace Zu

namespace Lib

/-- How a write acts on a disk, and what it may leave when it is torn. -/
class DiskWrite (ω : Type) (δ : outParam Type) where
  apply : ω → δ → δ
  Torn : ω → δ → δ → Prop

variable {ω δ ε : Type} [DiskWrite ω δ]

/-- What one write that was not synced leaves. -/
inductive Survives (w : ω) (d : δ) : δ → Prop
  | lost : Survives w d d
  | whole : Survives w d (DiskWrite.apply w d)
  | torn {d' : δ} : DiskWrite.Torn w d d' → Survives w d d'

/-- What the writes that were not synced may leave. -/
inductive Image : List ω → δ → δ → Prop
  | nil (d : δ) : Image [] d d
  | cons {w : ω} {ws : List ω} {d d₁ d₂ : δ} :
      Survives w d d₁ → Image ws d₁ d₂ → Image (w :: ws) d d₂

/-- What no write breaks, no loss of power breaks. -/
theorem Image.preserves {P : δ → Prop} {ws : List ω} {d d' : δ} (h : Image ws d d')
    (hw : ∀ w ∈ ws, ∀ d d', P d → Survives w d d' → P d') (hd : P d) : P d' := by
  induction h with
  | nil => exact hd
  | cons hone _ ih =>
      exact ih (fun v hv => hw v (List.mem_cons_of_mem _ hv))
        (hw _ List.mem_cons_self _ _ hd hone)

/-- The writes in order, all of them whole. -/
def applyAll (ws : List ω) (d : δ) : δ := ws.foldl (fun d w => DiskWrite.apply w d) d

theorem applyAll_append (ws vs : List ω) (d : δ) :
    applyAll (ws ++ vs) d = applyAll vs (applyAll ws d) := List.foldl_append

theorem Image.whole (ws : List ω) (d : δ) : Image ws d (applyAll ws d) := by
  induction ws generalizing d with
  | nil => exact Image.nil d
  | cons w ws ih => exact Image.cons .whole (ih _)

/-- A disk, what waits for a sync, and how the next calls turn out. -/
structure CrashDisk (ω δ : Type) where
  durable : δ
  pending : List ω
  plan : List Outcome

namespace CrashDisk

/-- What a read finds. -/
def view (c : CrashDisk ω δ) : δ := applyAll c.pending c.durable

def write (err : ε) (w : ω) : Fallible ε (CrashDisk ω δ) Unit := fun c =>
  let waiting := { c with pending := c.pending ++ [w], plan := c.plan.tail }
  match c.plan.head? with
  | some (.fails _) => (.error err, waiting)
  | _ => (.ok (), waiting)

/-- Waits until everything handed over is durable. -/
def sync (err : ε) : Fallible ε (CrashDisk ω δ) Unit := fun c =>
  match c.plan.head? with
  | some (.fails _) => (.error err, { c with plan := c.plan.tail })
  | _ => (.ok (), { durable := c.view, pending := [], plan := c.plan.tail })

omit [DiskWrite ω δ] in
theorem write_triple (err : ε) (w : ω) (d : δ) (ws : List ω) :
    Triple (fun c : CrashDisk ω δ => c.durable = d ∧ c.pending = ws) (write err w)
      (fun _ c => c.durable = d ∧ c.pending = ws ++ [w])
      (fun c => c.durable = d ∧ c.pending = ws ++ [w]) := by
  rintro ⟨durable, pending, plan⟩ ⟨rfl, rfl⟩
  refine ⟨fun _ t ht => ?_, fun e t ht => ?_⟩ <;>
    simp only [Fallible.exec, write] at ht <;> split at ht <;> cases ht <;> exact ⟨rfl, rfl⟩

theorem sync_triple (err : ε) (d : δ) (ws : List ω) :
    Triple (fun c : CrashDisk ω δ => c.durable = d ∧ c.pending = ws) (sync err)
      (fun _ c => c.durable = applyAll ws d ∧ c.pending = [])
      (fun c => c.durable = d ∧ c.pending = ws) := by
  rintro ⟨durable, pending, plan⟩ ⟨rfl, rfl⟩
  refine ⟨fun _ t ht => ?_, fun e t ht => ?_⟩ <;>
    simp only [Fallible.exec, sync] at ht <;> split at ht <;> cases ht <;> exact ⟨rfl, rfl⟩

end CrashDisk

end Lib

end Zu
