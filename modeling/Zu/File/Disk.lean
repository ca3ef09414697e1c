import Zu.Lib.FaultyFile
import Zu.Common.Error

/-!
# The database file on disk

Two header slots, the slot of a transaction's marker, and blocks. A slot is what
its checksum makes of it: a header, or nothing. A torn write of a slot leaves one
that does not verify; a torn write of a block leaves anything in it.
-/

namespace Zu.File

open Lib

/-- `BlockPtr`: blocks are numbered from 1. -/
abbrev BlockPtr := ℕ

def nullBlock : BlockPtr := 0

def blockSize : ℕ := 32768

/-- `DatabaseHeader`: one checkpoint's view of the file. -/
structure DatabaseHeader where
  epoch : Epoch
  catalogRoot : BlockPtr := nullBlock
  tableIndexRoot : BlockPtr := nullBlock
  freeListRoot : BlockPtr := nullBlock
  blockCount : ℕ := 0
  walSeq : Epoch := 0
  statsRoot : BlockPtr := nullBlock
  deriving DecidableEq, Repr

/-- A marker: the header a transaction holds and the floor of the log. -/
abbrev Marker := DatabaseHeader × Epoch

structure Disk where
  slots : Fin 2 → Option DatabaseHeader
  marker : Option Marker
  blocks : BlockPtr → Bytes

/-- A write to the file. -/
inductive Write
  | slot (i : Fin 2) (h : DatabaseHeader)
  | marker (m : Option Marker)
  | block (ptr : BlockPtr) (data : Bytes)

namespace Disk

def setSlot (d : Disk) (i : Fin 2) (h : Option DatabaseHeader) : Disk :=
  { d with slots := Function.update d.slots i h }

def setBlock (d : Disk) (ptr : BlockPtr) (data : Bytes) : Disk :=
  { d with blocks := Function.update d.blocks ptr data }

end Disk

instance : DiskWrite Write Disk where
  apply
    | .slot i h, d => d.setSlot i h
    | .marker m, d => { d with marker := m }
    | .block ptr data, d => d.setBlock ptr data
  Torn
    | .slot i _, d, d' => d' = d.setSlot i none
    | .marker _, d, d' => d' = { d with marker := none }
    | .block ptr _, d, d' => ∃ junk, d' = d.setBlock ptr junk

/-- The file a handle writes to. -/
abbrev Device := CrashDisk Write Disk

/-- A write of a block changes that block and nothing else. -/
theorem survives_block {ptr : BlockPtr} {data : Bytes} {d d' : Disk}
    (h : Survives (.block ptr data : Write) d d') :
    d'.slots = d.slots ∧ d'.marker = d.marker ∧
      ∀ b, b ≠ ptr → d'.blocks b = d.blocks b := by
  cases h with
  | lost => exact ⟨rfl, rfl, fun _ _ => rfl⟩
  | whole => exact ⟨rfl, rfl, fun b hb => Function.update_of_ne hb _ _⟩
  | torn h =>
      obtain ⟨junk, rfl⟩ := h
      exact ⟨rfl, rfl, fun b hb => Function.update_of_ne hb _ _⟩

/-- Writes that only go to blocks outside `kept`. -/
def Spares (kept : BlockPtr → Prop) (ws : List Write) : Prop :=
  ∀ w ∈ ws, ∃ ptr data, w = .block ptr data ∧ ¬ kept ptr

/-- Losing power over writes that spare some blocks keeps those, and the headers. -/
theorem Image.spares {kept : BlockPtr → Prop} {ws : List Write} {d d' : Disk}
    (h : Image ws d d') (hws : Spares kept ws) :
    d'.slots = d.slots ∧ d'.marker = d.marker ∧ ∀ b, kept b → d'.blocks b = d.blocks b := by
  have hkeep : ∀ w ∈ ws, ∀ e e' : Disk, (e.slots = d.slots ∧ e.marker = d.marker ∧
      ∀ b, kept b → e.blocks b = d.blocks b) → Survives w e e' →
        e'.slots = d.slots ∧ e'.marker = d.marker ∧ ∀ b, kept b → e'.blocks b = d.blocks b := by
    rintro w hw e e' ⟨hslots, hmarker, hblocks⟩ hone
    obtain ⟨ptr, data, rfl, hptr⟩ := hws w hw
    obtain ⟨hslots', hmarker', hblocks'⟩ := survives_block hone
    refine ⟨hslots'.trans hslots, hmarker'.trans hmarker, fun b hb => ?_⟩
    rw [hblocks' b fun heq => hptr (heq ▸ hb), hblocks b hb]
  exact h.preserves hkeep ⟨rfl, rfl, fun _ _ => rfl⟩

theorem applyAll_spares {kept : BlockPtr → Prop} {ws : List Write} (d : Disk)
    (hws : Spares kept ws) :
    (applyAll ws d).slots = d.slots ∧ (applyAll ws d).marker = d.marker ∧
      ∀ b, kept b → (applyAll ws d).blocks b = d.blocks b :=
  Image.spares (Image.whole ws d) hws

end Zu.File
