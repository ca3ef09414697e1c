import Zu.File.Snapshot

/-!
# What a checkpoint does

The list of free blocks goes into blocks that were free already or past the end of
the file, then everything is synced, then the header goes into the other slot.
`Published` says what a checkpoint that returns has done, and `PublishCut` what one
that was cut off anywhere has put on the disk.
-/

namespace Zu.File

open Lib

variable {crc : Bytes → UInt32}

/-- The file is `f₀` but for its device, which holds `D` and owes `P`. -/
def At (f₀ : Zu1File) (D : Disk) (P : List Write) (f : Zu1File) : Prop :=
  (f.device.durable = D ∧ f.device.pending = P) ∧ ∃ d, f = f₀.withDevice d

theorem onDevice_triple {α : Type} {x : Fallible ZuError Device α}
    {P E : Device → Prop} {Q : α → Device → Prop} (h : Triple P x Q E) (f₀ : Zu1File) :
    Triple (fun f => P f.device ∧ ∃ d, f = f₀.withDevice d) (onDevice x)
      (fun a f => Q a f.device ∧ ∃ d, f = f₀.withDevice d)
      (fun f => E f.device ∧ ∃ d, f = f₀.withDevice d) := by
  rintro f ⟨hP, d, rfl⟩
  obtain ⟨hok, herr⟩ := h d hP
  cases hx : x.exec d with
  | mk r d' =>
      have hx' : x d = (r, d') := hx
      have hexec : (onDevice x).exec (f₀.withDevice d) =
          (r, f₀.withDevice d') := by
        change ((x d).1, f₀.withDevice (x d).2) = _
        rw [hx']
      rw [hexec]
      refine ⟨fun a t ht => ?_, fun e t ht => ?_⟩ <;> cases ht
      · exact ⟨hok a d' hx, d', rfl⟩
      · exact ⟨herr e d' hx, d', rfl⟩

theorem writeAllAt_triple (f₀ : Zu1File) (D : Disk) (P : List Write) (w : Write) :
    Triple (At f₀ D P) (writeAllAt w) (fun _ => At f₀ D (P ++ [w]))
      (At f₀ D (P ++ [w])) :=
  onDevice_triple (CrashDisk.write_triple ZuError.io w D P) f₀

theorem syncAll_triple (f₀ : Zu1File) (D : Disk) (P : List Write) :
    Triple (At f₀ D P) syncAll (fun _ => At f₀ (applyAll P D) []) (At f₀ D P) :=
  onDevice_triple (CrashDisk.sync_triple ZuError.io D P) f₀

/-- A change of the handle that leaves its device alone. -/
theorem At.update {f₀ f : Zu1File} {D : Disk} {P : List Write} (h : At f₀ D P f)
    (g : Zu1File → Zu1File) (hg : ∀ d, g (f₀.withDevice d) = (g f₀).withDevice d) :
    At (g f₀) D P (g f) := by
  obtain ⟨⟨hD, hP⟩, d, rfl⟩ := h
  refine ⟨?_, d, hg d⟩
  rw [hg]
  exact ⟨hD, hP⟩

theorem At.device_eq {f₀ f : Zu1File} {D : Disk} {P : List Write} (h : At f₀ D P f) :
    f = f₀.withDevice f.device := by
  obtain ⟨-, d, rfl⟩ := h
  rfl

theorem modify_triple (f₀ : Zu1File) (D : Disk) (P : List Write) {E : Zu1File → Prop}
    (g : Zu1File → Zu1File) (hg : ∀ d, g (f₀.withDevice d) = (g f₀).withDevice d) :
    Triple (At f₀ D P) (modify g : FileM Unit) (fun _ => At (g f₀) D P) E :=
  Triple.update fun _ hf => hf.update g hg

theorem checkWritable_triple {f₀ : Zu1File} (hw : f₀.writable = true) (D : Disk)
    (P : List Write) (what : String) {E : Zu1File → Prop} :
    Triple (At f₀ D P) (checkWritable what) (fun _ => At f₀ D P) E := by
  refine Triple.readState fun f hf => ?_
  refine Triple.ite (fun _ => Triple.pure fun g hg => hg ▸ hf) fun hnot => ?_
  obtain ⟨-, d, rfl⟩ := hf
  exact absurd hw hnot

theorem writeBlock_triple {f₀ : Zu1File} (hw : f₀.writable = true) {ptr : BlockPtr}
    (hptr : InRange f₀.db.blockCount ptr) (D : Disk) (P : List Write) (data : Bytes) :
    Triple (At f₀ D P) (writeBlock ptr data)
      (fun _ => At f₀ D (P ++ [.block ptr data])) (At f₀ D (P ++ [.block ptr data])) := by
  refine (checkWritable_triple hw D P "write").bind fun _ => Triple.readState fun f hf => ?_
  have hcheck : checkPtr f.db.blockCount ptr = .ok () := by
    obtain ⟨-, d, rfl⟩ := hf
    exact checkPtr_ok hptr
  rw [hcheck]
  refine Triple.bind (Q := fun _ g => g = f) (Triple.pure fun g hg => hg) fun _ => ?_
  exact (writeAllAt_triple f₀ D P _).weaken (fun g hg => hg ▸ hf) (fun _ _ h => h) fun _ h => h

variable (crc) in
/-- The writes that put a chain down. -/
def linkWrites : List (BlockPtr × Bytes) → List Write
  | [] => []
  | (ptr, part) :: rest =>
      .block ptr (encodeLink crc (rest.head?.elim nullBlock Prod.fst) part) :: linkWrites rest

/-- Writes that only go to blocks in `room`. -/
def Into (room : BlockPtr → Prop) (ws : List Write) : Prop :=
  ∀ w ∈ ws, ∃ ptr data, w = .block ptr data ∧ room ptr

theorem Into.mono {room room' : BlockPtr → Prop} {ws : List Write} (h : Into room ws)
    (hroom : ∀ b, room b → room' b) : Into room' ws := by
  intro w hw
  obtain ⟨ptr, data, rfl, hptr⟩ := h w hw
  exact ⟨ptr, data, rfl, hroom ptr hptr⟩

theorem Into.spares {room kept : BlockPtr → Prop} {ws : List Write} (h : Into room ws)
    (hkept : ∀ b, room b → ¬ kept b) : Spares kept ws := by
  intro w hw
  obtain ⟨ptr, data, rfl, hptr⟩ := h w hw
  exact ⟨ptr, data, rfl, hkept ptr hptr⟩

theorem into_linkWrites (links : List (BlockPtr × Bytes)) :
    Into (· ∈ links.map Prod.fst) (linkWrites crc links) := by
  induction links with
  | nil => intro w hw; cases hw
  | cons link rest ih =>
      intro w hw
      rcases List.mem_cons.1 hw with rfl | hw
      · exact ⟨link.1, _, rfl, List.mem_cons_self⟩
      · exact ih.mono (fun b hb => List.mem_cons_of_mem _ hb) w hw

theorem writeLinks_triple {f₀ : Zu1File} (hw : f₀.writable = true) (D : Disk)
    (P : List Write) {links : List (BlockPtr × Bytes)}
    (hrange : ∀ l ∈ links, InRange f₀.db.blockCount l.1) :
    Triple (At f₀ D P) (writeLinks crc links)
      (fun _ => At f₀ D (P ++ linkWrites crc links))
      (fun f => ∃ vs, vs <+: linkWrites crc links ∧ At f₀ D (P ++ vs) f) := by
  induction links generalizing P with
  | nil => exact Triple.pure fun f hf => by rwa [linkWrites, List.append_nil]
  | cons link rest ih =>
      set w : Write :=
        .block link.1 (encodeLink crc (rest.head?.elim nullBlock Prod.fst) link.2)
      refine Triple.bind (Q := fun _ => At f₀ D (P ++ [w]))
        ((writeBlock_triple hw (hrange link List.mem_cons_self) D P _).weaken (fun _ h => h)
          (fun _ _ h => h) fun f hf => ⟨[w], List.cons_prefix_cons.2 ⟨rfl, List.nil_prefix⟩, hf⟩)
        fun _ => ?_
      refine (ih (P ++ [w]) fun l hl => hrange l (List.mem_cons_of_mem _ hl)).weaken
        (fun _ h => h) (fun _ f hf => ?_) ?_
      · rwa [List.append_assoc] at hf
      · rintro f ⟨vs, hvs, hf⟩
        exact ⟨w :: vs, List.cons_prefix_cons.2 ⟨rfl, hvs⟩, by rwa [List.append_assoc] at hf⟩

/-- The chain reads back once its writes are in. -/
theorem linked_applyAll {links : List (BlockPtr × Bytes)}
    (hnodup : (links.map Prod.fst).Nodup) (d : Disk) :
    Linked crc (applyAll (linkWrites crc links) d).blocks links := by
  induction links generalizing d with
  | nil => trivial
  | cons link rest ih =>
      obtain ⟨hnew, hrest⟩ := List.nodup_cons.1 hnodup
      refine ⟨?_, ih hrest _⟩
      have hspares : Spares (· = link.1) (linkWrites crc rest) :=
        (into_linkWrites rest).spares fun b hb heq => hnew (heq ▸ hb)
      have hkeep := (applyAll_spares (DiskWrite.apply (Write.block link.1
        (encodeLink crc (rest.head?.elim nullBlock Prod.fst) link.2)) d) hspares).2.2 link.1 rfl
      exact hkeep.trans (Function.update_self _ _ _)

/-- The blocks a file grows by. -/
def newBlocks (m n : ℕ) : List BlockPtr := List.range' (m + 1) (n - m)

theorem newBlocks_self (m : ℕ) : newBlocks m m = [] := by rw [newBlocks, Nat.sub_self]; rfl

theorem newBlocks_append {l m n : ℕ} (h : l ≤ m) (h' : m ≤ n) :
    newBlocks l m ++ newBlocks m n = newBlocks l n := by
  obtain ⟨a, rfl⟩ := Nat.exists_eq_add_of_le h
  obtain ⟨b, rfl⟩ := Nat.exists_eq_add_of_le h'
  have hstart : l + a + 1 = l + 1 + a := by ring
  rw [newBlocks, newBlocks, newBlocks, hstart, Nat.add_sub_cancel_left, Nat.add_sub_cancel_left,
    List.range'_append_1, Nat.add_assoc, Nat.add_sub_cancel_left]

theorem mem_newBlocks {m n b : ℕ} : b ∈ newBlocks m n ↔ m < b ∧ b ≤ n := by
  rw [newBlocks, List.mem_range'_1]
  omega

theorem nodup_newBlocks (m n : ℕ) : (newBlocks m n).Nodup := List.nodup_range' ..

theorem length_newBlocks (m n : ℕ) : (newBlocks m n).length = n - m := List.length_range' ..

/-- What allocating the blocks `ptrs` does: they come off the free list, and past
the high-water mark once that is empty. -/
structure Allocated (f₀ : Zu1File) (ptrs : List BlockPtr) (f : Zu1File) : Prop where
  rest : f = { f₀ with
    free := f.free
    db := { f₀.db with blockCount := f.db.blockCount }
    unpublished := f.unpublished }
  le : f₀.db.blockCount ≤ f.db.blockCount
  left : f.free <+: f₀.free
  perm : (f.free ++ ptrs).Perm (f₀.free ++ newBlocks f₀.db.blockCount f.db.blockCount)

theorem Allocated.nil (f₀ : Zu1File) : Allocated f₀ [] f₀ :=
  ⟨rfl, le_rfl, List.prefix_rfl, by rw [newBlocks_self]⟩

theorem Allocated.cons {f₀ f₁ f : Zu1File} {ptr : BlockPtr} {ptrs : List BlockPtr}
    (h : Allocated f₀ [ptr] f₁) (h' : Allocated f₁ ptrs f) :
    Allocated f₀ (ptr :: ptrs) f := by
  refine ⟨?_, h.le.trans h'.le, h'.left.trans h.left, List.perm_iff_count.2 fun b => ?_⟩
  · rw [h'.rest, h.rest]
  · have hfirst := h.perm.count_eq b
    have hrest := h'.perm.count_eq b
    rw [← newBlocks_append h.le h'.le]
    simp only [List.count_append, List.count_cons, List.count_nil] at hfirst hrest ⊢
    omega

theorem allocateBlock_triple (f₀ : Zu1File) (D : Disk) (P : List Write) :
    Triple (At f₀ D P) allocateBlock
      (fun ptr f => ∃ f₁, Allocated f₀ [ptr] f₁ ∧ At f₁ D P f) (fun _ => False) := by
  refine (modify_triple f₀ D P _ fun _ => rfl).bind fun _ => Triple.readState fun f hf => ?_
  cases hlast : f.free.getLast? with
  | some ptr =>
      refine (Triple.update (Q := fun _ g => g = { f with free := f.free.dropLast })
        fun g _ => rfl).bind fun _ => Triple.pure fun g hg => ?_
      obtain ⟨⟨hD, hP⟩, d, rfl⟩ := hf
      subst hg
      refine ⟨{ f₀ with free := f₀.free.dropLast, unpublished := f₀.unpublished + 1 },
        ⟨rfl, le_rfl, List.dropLast_prefix _, ?_⟩, ⟨hD, hP⟩, d, rfl⟩
      have hfree : f₀.free.dropLast ++ [ptr] = f₀.free :=
        List.dropLast_append_getLast? ptr hlast
      rw [newBlocks_self, List.append_nil, hfree]
  | none =>
      refine (Triple.update (Q := fun _ g => g =
        { f with db := { f.db with blockCount := f.db.blockCount + 1 } })
        fun g _ => rfl).bind fun _ => Triple.pure fun g hg => ?_
      obtain ⟨⟨hD, hP⟩, d, rfl⟩ := hf
      subst hg
      have hfree : f₀.free = [] := List.getLast?_eq_none_iff.1 hlast
      refine ⟨{ f₀ with
        db := { f₀.db with blockCount := f₀.db.blockCount + 1 }
        unpublished := f₀.unpublished + 1 }, ⟨rfl, Nat.le_succ _, List.prefix_rfl, ?_⟩, ⟨hD, hP⟩, d, rfl⟩
      have hnew : newBlocks f₀.db.blockCount (f₀.db.blockCount + 1) =
          [f₀.db.blockCount + 1] := by
        rw [newBlocks, Nat.add_sub_cancel_left]
        rfl
      rw [hnew]
      rfl

theorem allocateBlocks_triple (f₀ : Zu1File) (D : Disk) (P : List Write)
    (parts : List Bytes) :
    Triple (At f₀ D P) (allocateBlocks parts)
      (fun links f => links.map Prod.snd = parts ∧
        ∃ f₁, Allocated f₀ (links.map Prod.fst) f₁ ∧ At f₁ D P f) (fun _ => False) := by
  induction parts generalizing f₀ with
  | nil => exact Triple.pure fun f hf => ⟨rfl, f₀, Allocated.nil f₀, hf⟩
  | cons part parts ih =>
      refine (allocateBlock_triple f₀ D P).bind fun ptr => Triple.of_forall fun f₁ => ?_
      intro f hf
      refine (Triple.bind (ih f₁) fun links => Triple.pure fun g hg => ?_) f hf.2
      obtain ⟨hparts, f₂, halloc, hat⟩ := hg
      refine ⟨by rw [List.map_cons, hparts], f₂, ?_, hat⟩
      exact hf.1.cons halloc

theorem Allocated.growth {f₀ f : Zu1File} {ptrs : List BlockPtr} (h : Allocated f₀ ptrs f) :
    f.db.blockCount - f₀.db.blockCount ≤ ptrs.length := by
  have hlen := h.perm.length_eq
  have hleft := h.left.length_le
  rw [List.length_append, List.length_append, length_newBlocks] at hlen
  omega

theorem Allocated.of_mem {f₀ f : Zu1File} {ptrs : List BlockPtr} (h : Allocated f₀ ptrs f)
    {b : BlockPtr} (hb : b ∈ ptrs) :
    b ∈ f₀.free ∨ f₀.db.blockCount < b ∧ b ≤ f.db.blockCount := by
  have hmem := h.perm.subset (List.mem_append_right _ hb)
  exact (List.mem_append.1 hmem).imp_right mem_newBlocks.1

/-- What writing the list of the free blocks `all` has done: `links` is its chain,
`listed` what it names, and `extra` what was set aside for it and not used. -/
structure Listing (f₀ : Zu1File) (all : List BlockPtr) (safe : ℕ)
    (links : List (BlockPtr × Bytes)) (listed extra : List BlockPtr) (f : Zu1File) :
    Prop where
  rest : f = { f₀ with
    free := []
    db := { f₀.db with
      blockCount := f.db.blockCount
      freeListRoot := links.head?.elim nullBlock Prod.fst }
    unpublished := f.unpublished }
  le : f₀.db.blockCount ≤ f.db.blockCount
  growth : f.db.blockCount - f₀.db.blockCount ≤ listed.length
  listedLe : listed.length ≤ all.length
  partLe : ∀ l ∈ links, l.2.length ≤ chainCapacity
  payload : (links.map Prod.snd).flatten = encodeFreeList listed
  perm : (listed ++ extra ++ links.map Prod.fst).Perm
    (all ++ newBlocks f₀.db.blockCount f.db.blockCount)
  source : ∀ b ∈ links.map Prod.fst, b ∈ all.take safe ∨ f₀.db.blockCount < b

/-- What a program that was cut off has left: writes to blocks in `room`. -/
def CutInto (room : BlockPtr → Prop) (D : Disk) (P : List Write) (f : Zu1File) : Prop :=
  ∃ vs, Into room vs ∧ f.device.durable = D ∧ f.device.pending = P ++ vs

theorem writeChain_triple {f₀ : Zu1File} (hw : f₀.writable = true)
    (hrange : ∀ b ∈ f₀.free, InRange f₀.db.blockCount b) (D : Disk) (P : List Write)
    (payload : Bytes) :
    Triple (At f₀ D P) (writeChain crc payload)
      (fun root f => ∃ links f₁, root = links.head?.elim nullBlock Prod.fst ∧
        links.map Prod.snd = chunks chainCapacity payload ∧
        Allocated f₀ (links.map Prod.fst) f₁ ∧ At f₁ D (P ++ linkWrites crc links) f)
      (CutInto (fun b => b ∈ f₀.free ∨ f₀.db.blockCount < b) D P) := by
  refine ((allocateBlocks_triple f₀ D P _).weaken (fun _ h => h) (fun _ _ h => h)
    fun _ h => h.elim).bind fun links => ?_
  rintro f ⟨hparts, f₁, halloc, hat⟩
  have hrest : f₁.writable = true := by
    rw [halloc.rest]
    exact hw
  have hlinks : ∀ l ∈ links, InRange f₁.db.blockCount l.1 := by
    intro l hl
    rcases halloc.of_mem (List.mem_map_of_mem hl) with hfree | ⟨hlt, hle⟩
    · exact (hrange _ hfree).mono halloc.le
    · exact ⟨Nat.lt_of_le_of_lt (Nat.zero_le _) hlt, hle⟩
  refine (Triple.bind ((writeLinks_triple hrest D P hlinks).weaken (fun _ h => h)
    (fun _ _ h => h) fun g hg => ?_) fun _ => Triple.pure fun g hg => ?_) f hat
  · obtain ⟨vs, hvs, hg⟩ := hg
    refine ⟨vs, fun w hw => ?_, hg.1.1, hg.1.2⟩
    exact (into_linkWrites links).mono
      (fun b hb => (halloc.of_mem hb).imp_right And.left) w (hvs.subset hw)
  · exact ⟨links, f₁, rfl, hparts, halloc, hg⟩

theorem writeFreeList_triple {f₀ : Zu1File} (hw : f₀.writable = true) (hfree : f₀.free = [])
    {all : List BlockPtr} (hrange : ∀ b ∈ all, InRange f₀.db.blockCount b) (safe : ℕ)
    (D : Disk) (P : List Write) :
    Triple (At f₀ D P) (writeFreeList crc all safe)
      (fun result f => ∃ links listed extra f₁, result = listed ++ extra ∧
        Listing f₀ all safe links listed extra f₁ ∧ At f₁ D (P ++ linkWrites crc links) f)
      (CutInto (fun b => b ∈ all.take safe ∨ f₀.db.blockCount < b) D P) := by
  refine Triple.ite (fun hall => ?_) (fun hall => ?_)
  · refine (modify_triple f₀ D P
      (fun f => { f with db := { f.db with freeListRoot := nullBlock } }) fun _ => rfl).bind
        fun _ => Triple.pure fun f hf => ?_
    refine ⟨[], [], [], { f₀ with db := { f₀.db with freeListRoot := nullBlock } }, rfl,
      ⟨?_, le_rfl, ?_, Nat.zero_le _, ?_, rfl, ?_, ?_⟩, ?_⟩
    · cases f₀
      cases hfree
      rfl
    · exact (Nat.sub_self _).le
    · simp
    · rw [hall, newBlocks_self]
      exact List.Perm.refl _
    · simp
    · rwa [linkWrites, List.append_nil]
  · set taken := if reserveCount all.length ≤ safe ∧ reserveCount all.length < all.length then
      reserveCount all.length else 0 with htaken
    have hsafe : taken ≤ safe := by rw [htaken]; split_ifs with h <;> omega
    have hsub : all.take taken ⊆ all.take safe := List.take_subset_take_left all hsafe
    set f₁ : Zu1File := { f₀ with free := all.take taken } with hf₁
    have hrange₁ : ∀ b ∈ f₁.free, InRange f₁.db.blockCount b := fun b hb =>
      hrange b (List.mem_of_mem_take hb)
    refine (modify_triple f₀ D P (fun f => { f with free := all.take taken })
      fun _ => rfl).bind fun _ => ?_
    have hwrite := @writeChain_triple crc f₁ hw hrange₁ D P (encodeFreeList (all.drop taken))
    refine Triple.bind (hwrite.weaken (fun _ h => h) (fun _ _ h => h) fun f hf => ?_)
      fun root => ?_
    · obtain ⟨vs, hvs, hf⟩ := hf
      exact ⟨vs, hvs.mono fun b hb => hb.imp_left fun hb => hsub hb, hf⟩
    rintro f ⟨links, f₂, rfl, hparts, halloc, hat⟩
    refine (Triple.readState fun g hg => Triple.bind (Q := fun _ t => t = { g with
      free := [], db := { g.db with freeListRoot := links.head?.elim nullBlock Prod.fst } })
      (Triple.update fun t _ => rfl) fun _ => Triple.pure fun t ht => ?_) f hat
    obtain ⟨⟨hD, hP⟩, d, rfl⟩ := hg
    refine ⟨links, all.drop taken, f₂.free, { f₂ with
      free := [], db := { f₂.db with freeListRoot := links.head?.elim nullBlock Prod.fst } },
      rfl, ⟨?_, halloc.le, ?_, ?_, ?_, ?_, ?_, ?_⟩, ?_⟩
    · rw [halloc.rest]
    · have hlen := congrArg List.length hparts
      rw [List.length_map] at hlen
      have hgrowth := halloc.growth
      rw [List.length_map, hlen] at hgrowth
      exact hgrowth.trans (length_chunks_encodeFreeList_le _)
    · exact (List.length_drop ..).trans_le (Nat.sub_le _ _)
    · intro l hl
      have hmem : l.2 ∈ chunks chainCapacity (encodeFreeList (all.drop taken)) := by
        rw [← hparts]
        exact List.mem_map_of_mem hl
      exact length_le_of_mem_chunksFrom hmem
    · rw [hparts, flatten_chunks (by decide)]
    · refine List.perm_iff_count.2 fun b => ?_
      have hb := halloc.perm.count_eq b
      have hsplit : all.count b = (all.take taken).count b + (all.drop taken).count b := by
        rw [← List.count_append, List.take_append_drop]
      simp only [List.count_append, hf₁] at hb ⊢
      omega
    · intro b hb
      exact (halloc.of_mem hb).imp (fun hb => hsub hb) And.left
    · subst ht
      exact ⟨⟨hD, hP⟩, d, rfl⟩

/-- The blocks a checkpoint lists as free. -/
def Zu1File.unreferenced (f : Zu1File) : List BlockPtr :=
  f.free ++ f.frozen ++ f.pendingFree ++ f.freeChain

/-- The snapshot a checkpoint is about to publish, with its list and its data on the
disk: `live` is what the roots reach and `extra` what was set aside and not used. -/
structure Drafted (crc : Bytes → UInt32) (f₀ : Zu1File) (live : List BlockPtr) (D : Disk)
    (P : List Write) (N : Snapshot) (extra : List BlockPtr) : Prop where
  sound : N.Sound crc
  live_eq : N.live = live
  header : N.header = { f₀.db with
    epoch := f₀.db.epoch + 1
    blockCount := N.header.blockCount
    freeListRoot := N.header.freeListRoot }
  le : f₀.db.blockCount ≤ N.header.blockCount
  blocks : N.blocks = (applyAll (P ++ linkWrites crc N.links) D).blocks
  perm : (N.listed ++ extra ++ N.chain).Perm
    (f₀.unreferenced ++ newBlocks f₀.db.blockCount N.header.blockCount)
  source : ∀ b ∈ N.chain, b ∈ f₀.free ∨ f₀.db.blockCount < b

/-- What `publish` leaves when it returns. -/
structure Published (crc : Bytes → UInt32) (f₀ : Zu1File) (live : List BlockPtr) (D : Disk)
    (P : List Write) (N : Snapshot) (extra : List BlockPtr) (f : Zu1File) : Prop where
  drafted : Drafted crc f₀ live D P N extra
  durable : f.device.durable =
    (applyAll (P ++ linkWrites crc N.links) D).setSlot (1 - f₀.activeSlot) (some N.header)
  pending : f.device.pending = []
  rest : ∃ u, f = ((Zu1File.settle (N.listed ++ extra) (f₀.pendingFree ++ f₀.freeChain)
    f₀.db.epoch { f₀ with
      db := N.header
      activeSlot := 1 - f₀.activeSlot
      free := []
      pendingFree := []
      freeChain := N.chain
      frozen := []
      unpublished := u }).withDevice f.device)

/-- What `publish` leaves when it is cut off at the header. -/
structure HeaderCut (crc : Bytes → UInt32) (f₀ : Zu1File) (live : List BlockPtr) (D : Disk)
    (P : List Write) (N : Snapshot) (extra : List BlockPtr) (f : Zu1File) : Prop where
  drafted : Drafted crc f₀ live D P N extra
  durable : f.device.durable = applyAll (P ++ linkWrites crc N.links) D
  pending : f.device.pending = [] ∨ f.device.pending = [.slot (1 - f₀.activeSlot) N.header]

/-- What `publish` has put on the disk when it is cut off. -/
def PublishCut (crc : Bytes → UInt32) (f₀ : Zu1File) (live : List BlockPtr) (D : Disk)
    (P : List Write) (f : Zu1File) : Prop :=
  CutInto (fun b => b ∈ f₀.free ∨ f₀.db.blockCount < b) D P f ∨
    ∃ N extra, HeaderCut crc f₀ live D P N extra f

theorem flipHeader_triple (f₀ : Zu1File) (D : Disk) :
    Triple (At f₀ D []) flipHeader
      (fun _ => At { f₀ with activeSlot := 1 - f₀.activeSlot }
        (D.setSlot (1 - f₀.activeSlot) (some f₀.db)) [])
      (fun f => f.device.durable = D ∧ f.device.pending = [.slot (1 - f₀.activeSlot) f₀.db]) := by
  refine Triple.readState fun f hf => ?_
  have hdb : f.db = f₀.db := by rw [hf.device_eq]; rfl
  have hslot : f.activeSlot = f₀.activeSlot := by rw [hf.device_eq]; rfl
  rw [hdb, hslot]
  refine Triple.bind (Q := fun _ => At f₀ D [.slot (1 - f₀.activeSlot) f₀.db])
    ((writeAllAt_triple f₀ D [] _).weaken (fun g hg => hg ▸ hf) (fun _ _ h => h)
      fun g hg => hg.1) fun _ => ?_
  refine Triple.bind ((syncAll_triple f₀ D _).weaken (fun _ h => h) (fun _ _ h => h)
    fun g hg => hg.1) fun _ => ?_
  exact modify_triple f₀ _ [] (fun f => { f with activeSlot := 1 - f.activeSlot }) fun _ => rfl

theorem readFreeChain_triple {f₀ : Zu1File} {D : Disk} {links : List (BlockPtr × Bytes)}
    (hchain : chainAt crc f₀.db.blockCount D.blocks f₀.db.freeListRoot = .ok links)
    (hfree : f₀.freeChain = []) {E : Zu1File → Prop} :
    Triple (At f₀ D []) (readFreeChain crc)
      (fun _ => At { f₀ with freeChain := links.map Prod.fst } D []) E := by
  refine Triple.readState fun f hf => ?_
  obtain ⟨⟨hD, hP⟩, d, rfl⟩ := hf
  refine Triple.ite (fun hroot => Triple.pure fun g hg => ?_) fun hroot => ?_
  · have hlinks : links = [] := by
      have hnil : chainAt crc f₀.db.blockCount D.blocks f₀.db.freeListRoot = .ok [] := by
        change f₀.db.freeListRoot = nullBlock at hroot
        rw [hroot]
        rfl
      rw [hnil] at hchain
      exact (Except.ok.inj hchain).symm
    subst hg
    refine ⟨⟨hD, hP⟩, d, ?_⟩
    rw [hlinks]
    cases f₀
    cases hfree
    rfl
  · have hview : (f₀.withDevice d).device.view.blocks = D.blocks := by
      rw [CrashDisk.view, hP, ← hD]
      rfl
    have hread : chainBlocks crc (f₀.withDevice d).db.blockCount
        (f₀.withDevice d).device.view.blocks (f₀.withDevice d).db.freeListRoot =
          .ok (links.map Prod.fst) := by
      rw [chainBlocks, hview]
      exact congrArg (· >>= fun l => pure (l.map Prod.fst)) hchain
    rw [hread]
    exact Triple.update fun g _ => ⟨⟨hD, hP⟩, d, rfl⟩

/-- The handle with its lists taken, as `publish` writes them out. -/
def Zu1File.emptied (f : Zu1File) : Zu1File :=
  { f with free := [], frozen := [], pendingFree := [], freeChain := [] }

theorem nodup_append_newBlocks {bs : List BlockPtr} {m : ℕ} (n : ℕ) (hnodup : bs.Nodup)
    (hrange : ∀ b ∈ bs, InRange m b) : (bs ++ newBlocks m n).Nodup := by
  refine List.nodup_append.2 ⟨hnodup, nodup_newBlocks m n, fun b hb c hc heq => ?_⟩
  have hle := (hrange b hb).2
  have hlt := (mem_newBlocks.1 hc).1
  exact absurd hle (not_le.2 (heq ▸ hlt))

/-- The list that was written is the list of a sound snapshot. -/
theorem Listing.drafted {f₀ f : Zu1File} {live : List BlockPtr}
    {links : List (BlockPtr × Bytes)} {listed extra : List BlockPtr}
    (h : Listing f₀.emptied f₀.unreferenced f₀.free.length links listed extra f)
    (hnodup : (live ++ f₀.unreferenced).Nodup)
    (hrange : ∀ b ∈ live ++ f₀.unreferenced, InRange f₀.db.blockCount b)
    (hroom : 2 * f₀.db.blockCount ≤ maxBlockCount) (D : Disk) (P : List Write) :
    Drafted crc f₀ live D P
      { header := { f.db with epoch := f₀.db.epoch + 1 }
        live, links, listed
        blocks := (applyAll (P ++ linkWrites crc links) D).blocks } extra := by
  have hcount : f₀.emptied.db.blockCount = f₀.db.blockCount := rfl
  have hgrowth := h.growth
  have hlisted := h.listedLe
  have hperm := h.perm
  have hle := h.le
  rw [hcount] at hgrowth hperm hle
  have hall : f₀.unreferenced.length ≤ f₀.db.blockCount :=
    length_le_of_range (List.nodup_append.1 hnodup).2.1
      fun b hb => hrange b (List.mem_append_right _ hb)
  have hfull := nodup_append_newBlocks f.db.blockCount hnodup hrange
  have hgrown : ∀ b ∈ live ++ f₀.unreferenced ++ newBlocks f₀.db.blockCount f.db.blockCount,
      InRange f.db.blockCount b := by
    intro b hb
    rcases List.mem_append.1 hb with hb | hb
    · exact (hrange b hb).mono hle
    · obtain ⟨hlt, hle⟩ := mem_newBlocks.1 hb
      exact ⟨Nat.lt_of_le_of_lt (Nat.zero_le _) hlt, hle⟩
  have hmem : ∀ b ∈ links.map Prod.fst ++ listed,
      b ∈ f₀.unreferenced ++ newBlocks f₀.db.blockCount f.db.blockCount := by
    intro b hb
    refine hperm.subset ?_
    rcases List.mem_append.1 hb with hb | hb
    · exact List.mem_append_right _ hb
    · exact List.mem_append_left _ (List.mem_append_left _ hb)
  have hdb : f.db = { f₀.db with
      blockCount := f.db.blockCount
      freeListRoot := links.head?.elim nullBlock Prod.fst } := congrArg Zu1File.db h.rest
  have hnodup' : (live ++ links.map Prod.fst ++ listed).Nodup := by
    rw [List.nodup_iff_count_le_one] at hfull ⊢
    intro b
    have hb := hfull b
    have hb' := hperm.count_eq b
    simp only [List.count_append] at hb hb' ⊢
    omega
  refine ⟨⟨?_, ?_, ?_, h.partLe, h.payload, hnodup', ?_⟩, rfl, ?_, hle, rfl, hperm, ?_⟩
  · change f.db.blockCount ≤ maxBlockCount
    omega
  · exact congrArg DatabaseHeader.freeListRoot hdb
  · have hchain : (links.map Prod.fst).Nodup :=
      (List.nodup_append.1 (List.nodup_append.1 hnodup').1).2.1
    change Linked crc (applyAll (P ++ linkWrites crc links) D).blocks links
    rw [applyAll_append]
    exact linked_applyAll hchain _
  · intro b hb
    rw [List.append_assoc] at hb
    rcases List.mem_append.1 hb with hb | hb
    · exact hgrown b (List.mem_append_left _ (List.mem_append_left _ hb))
    · have hb := hmem b hb
      refine hgrown b ?_
      rw [List.append_assoc]
      exact List.mem_append_right _ hb
  · change { f.db with epoch := f₀.db.epoch + 1 } = _
    rw [hdb]
  · intro b hb
    have htake : f₀.unreferenced.take f₀.free.length = f₀.free := by
      rw [Zu1File.unreferenced, List.append_assoc, List.append_assoc, List.take_left]
    rw [← htake]
    exact h.source b hb

theorem settle_withDevice (all reached : List BlockPtr) (e : Epoch) (f : Zu1File) (d : Device) :
    Zu1File.settle all reached e (f.withDevice d) =
      (Zu1File.settle all reached e f).withDevice d := by
  obtain ⟨device, path, db, slot, free, pending, chain, frozen, writable, savepoint, retained,
    defer, unpublished, interrupted⟩ := f
  simp only [Zu1File.settle, Zu1File.reclaim, Zu1File.releaseRetained, Zu1File.withDevice]
  cases savepoint <;> cases defer <;> split_ifs <;> rfl

/-- What a checkpoint does, whether it returns or is cut off. -/
theorem publish_triple {f₀ : Zu1File} (hw : f₀.writable = true) {live : List BlockPtr}
    (hnodup : (live ++ f₀.unreferenced).Nodup)
    (hrange : ∀ b ∈ live ++ f₀.unreferenced, InRange f₀.db.blockCount b)
    (hroom : 2 * f₀.db.blockCount ≤ maxBlockCount) (D : Disk) (P : List Write) :
    Triple (At f₀ D P) (publish crc)
      (fun _ f => ∃ N extra, Published crc f₀ live D P N extra f)
      (PublishCut crc f₀ live D P) := by
  refine Triple.readState fun f hf => ?_
  have hfields : f.free = f₀.free ∧ f.frozen = f₀.frozen ∧ f.pendingFree = f₀.pendingFree ∧
      f.freeChain = f₀.freeChain ∧ f.db.epoch = f₀.db.epoch := by
    rw [hf.device_eq]
    exact ⟨rfl, rfl, rfl, rfl, rfl⟩
  obtain ⟨hfree, hfrozen, hpending, hchain, hepoch⟩ := hfields
  rw [hfree, hfrozen, hpending, hchain, hepoch]
  change Triple _ (_ >>= fun _ => writeFreeList crc f₀.unreferenced f₀.free.length >>= _) _ _
  refine Triple.bind (Q := fun _ => At f₀.emptied D P) (Triple.update fun g hg => ?_)
    fun _ => ?_
  · subst hg
    exact hf.update Zu1File.emptied fun _ => rfl
  have hall : ∀ b ∈ f₀.unreferenced, InRange f₀.emptied.db.blockCount b := fun b hb =>
    hrange b (List.mem_append_right _ hb)
  have htake : f₀.unreferenced.take f₀.free.length = f₀.free := by
    rw [Zu1File.unreferenced, List.append_assoc, List.append_assoc, List.take_left]
  have hlist := @writeFreeList_triple crc f₀.emptied hw rfl _ hall
    f₀.free.length D P
  refine Triple.bind (hlist.weaken (fun _ h => h) (fun _ _ h => h) fun g hg => Or.inl ?_)
    fun all => ?_
  · rwa [htake] at hg
  rintro g ⟨links, listed, extra, f₁, rfl, hlisting, hat⟩
  have hdraft := @Listing.drafted crc _ _ _ _ _ _ hlisting hnodup hrange hroom D P
  set N : Snapshot :=
    { header := { f₁.db with epoch := f₀.db.epoch + 1 }
      live, links, listed
      blocks := (applyAll (P ++ linkWrites crc links) D).blocks } with hN
  have hcut : ∀ g : Zu1File, g.device.durable = applyAll (P ++ linkWrites crc links) D →
      (g.device.pending = [] ∨ g.device.pending = [.slot (1 - f₀.activeSlot) N.header]) →
        PublishCut crc f₀ live D P g := fun g hD hP => Or.inr ⟨N, extra, hdraft, hD, hP⟩
  have hinto : Into (fun b => b ∈ f₀.free ∨ f₀.db.blockCount < b) (linkWrites crc links) :=
    (into_linkWrites links).mono hdraft.source
  set D₁ := applyAll (P ++ linkWrites crc links) D with hD₁
  have hrest := hlisting.rest
  -- the header is out once the second sync is back
  set f₂ : Zu1File := { f₁ with db := N.header } with hf₂
  have hslot : f₂.activeSlot = f₀.activeSlot := by rw [hf₂, hrest]; rfl
  set D₂ := D₁.setSlot (1 - f₂.activeSlot) (some f₂.db) with hD₂
  set f₃ : Zu1File := { f₂ with activeSlot := 1 - f₂.activeSlot } with hf₃
  have hread : chainAt crc f₃.db.blockCount D₂.blocks f₃.db.freeListRoot = .ok links :=
    hdraft.sound.chainAt fun _ _ => rfl
  have hempty : f₃.freeChain = [] := by rw [hf₃, hf₂, hrest]; rfl
  refine (Triple.bind ((syncAll_triple f₁ D _).weaken (fun _ h => h) (fun _ _ h => h)
    fun t ht => Or.inl ⟨linkWrites crc links, hinto, ht.1⟩) fun _ => ?_) g hat
  refine Triple.bind (Q := fun _ => At f₂ D₁ []) (Triple.update fun t ht => ?_) fun _ => ?_
  · have hmove := ht.update (fun g => { g with db := { g.db with epoch := g.db.epoch + 1 } })
      fun _ => rfl
    have hepoch : f₁.db.epoch = f₀.db.epoch := by rw [hrest]; rfl
    rw [hepoch] at hmove
    exact hmove
  refine Triple.bind ((flipHeader_triple f₂ D₁).weaken (fun _ h => h) (fun _ _ h => h)
    fun t ht => hcut t ht.1 (Or.inr (by rw [ht.2, hslot]))) fun _ => ?_
  refine (readFreeChain_triple hread hempty).bind fun _ => Triple.update fun t ht => ?_
  have hdone := ht.update (Zu1File.settle (listed ++ extra) (f₀.pendingFree ++ f₀.freeChain)
    f₀.db.epoch) fun d => settle_withDevice _ _ _ _ d
  refine ⟨N, extra, hdraft, ?_, hdone.1.2, f₁.unpublished, ?_⟩
  · rw [hdone.1.1, hD₂, hslot]
  · have hfile : { f₃ with freeChain := links.map Prod.fst } =
        { f₀ with
          db := N.header
          activeSlot := 1 - f₀.activeSlot
          free := []
          pendingFree := []
          freeChain := N.chain
          frozen := []
          unpublished := f₁.unpublished } := by
      apply Zu1File.ext
      case activeSlot => exact congrArg (1 - ·) hslot
      case free => exact (congrArg Zu1File.free hrest :)
      case device => exact (congrArg Zu1File.device hrest :)
      case path => exact (congrArg Zu1File.path hrest :)
      case pendingFree => exact (congrArg Zu1File.pendingFree hrest :)
      case frozen => exact (congrArg Zu1File.frozen hrest :)
      case writable => exact (congrArg Zu1File.writable hrest :)
      case savepoint => exact (congrArg Zu1File.savepoint hrest :)
      case retained => exact (congrArg Zu1File.retained hrest :)
      case deferReclaim => exact (congrArg Zu1File.deferReclaim hrest :)
      case interrupted => exact (congrArg Zu1File.interrupted hrest :)
      all_goals rfl
    rw [← hfile]
    exact hdone.device_eq

end Zu.File
