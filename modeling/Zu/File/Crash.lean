import Zu.File.Publish

/-!
# What a crash leaves of a file

Blocks are taken, written and given back, the roots are moved, a checkpoint publishes what has
become of it all, and the power goes. Whatever call fails and whatever is left of the writes no
sync has made durable, an open finds the state that was published last, or the one that was
being published, and a reader finds the state it is on.
-/

namespace Zu.File

open Lib

variable {crc : Bytes → UInt32}

/-- The blocks that wait until no reader is left on an older epoch. -/
def Zu1File.waiting (f : Zu1File) : List BlockPtr := f.retained.flatMap Prod.snd

/-- A state that was published: its header, the blocks in use, and what they held. -/
structure Kept where
  db : DatabaseHeader
  live : List BlockPtr
  blocks : BlockPtr → Bytes

variable (crc) in
/-- An open of the disk finds a state, and none of its blocks free. -/
def Opens (d : Disk) (k : Kept) : Prop :=
  ∀ path writable, ∃ f, openKind crc path writable ⟨d, [], []⟩ = .ok f ∧ f.db = k.db ∧
    f.interrupted = none ∧
    ∀ b ∈ k.live, f.device.view.blocks b = k.blocks b ∧ b ∉ f.free ∧ b ∉ f.freeChain

/-! ### What is on the disk -/

section

variable {f g : Zu1File} {live live' lost : List BlockPtr} {S N : Snapshot} {slot : Fin 2}
  {d d' : Disk} {k p : Kept} {ptr : BlockPtr} {extra : List BlockPtr}

/-- The slot has the header of a snapshot, the newest there is, and the disk has its blocks. -/
structure OnDisk (S : Snapshot) (slot : Fin 2) (d : Disk) : Prop where
  header : d.slots slot = some S.header
  older : ∀ h, decodeSlot (d.slots (1 - slot)) = some h → h.epoch < S.header.epoch
  marker : d.marker = none
  intact : S.Intact d.blocks

theorem OnDisk.spared (h : OnDisk S slot d)
    (hd : d'.slots = d.slots ∧ d'.marker = d.marker ∧ ∀ b, S.Reaches b → d'.blocks b = d.blocks b) :
    OnDisk S slot d' := by
  obtain ⟨hslots, hmarker, hblocks⟩ := hd
  refine ⟨hslots ▸ h.header, hslots ▸ h.older, hmarker.trans h.marker, fun b hb => ?_⟩
  exact (hblocks b hb).trans (h.intact b hb)

theorem newestSlot_eq {h : DatabaseHeader} (hslot : decodeSlot (d.slots slot) = some h)
    (holder : ∀ h', decodeSlot (d.slots (1 - slot)) = some h' → h'.epoch < h.epoch) :
    newestSlot d = some (h, slot) := by
  rw [newestSlot]
  match slot with
  | 0 =>
      change ∀ h', decodeSlot (d.slots 1) = some h' → _ at holder
      rw [hslot]
      cases hother : decodeSlot (d.slots 1) with
      | none => rfl
      | some h' => exact if_pos (holder h' hother).le
  | 1 =>
      change ∀ h', decodeSlot (d.slots 0) = some h' → _ at holder
      rw [hslot]
      cases hother : decodeSlot (d.slots 0) with
      | none => rfl
      | some h' => exact if_neg (not_le.2 (holder h' hother))

/-- A snapshot stands for a state. -/
structure StandsFor (S : Snapshot) (k : Kept) : Prop where
  header : S.header = k.db
  live : S.live = k.live
  blocks : ∀ b ∈ k.live, S.blocks b = k.blocks b

theorem OnDisk.opened (h : OnDisk S slot d) (hS : S.Sound crc) (path : String) (writable : Bool)
    (plan : List Outcome) : openKind crc path writable ⟨d, [], plan⟩ = .ok
      { device := ⟨d, [], plan⟩, path, db := S.header, activeSlot := slot, free := S.listed
        freeChain := S.chain, writable } := by
  have hdecode : decodeSlot (d.slots slot) = some S.header := by
    rw [h.header, decodeSlot, Option.filter_some, if_pos (decide_eq_true hS.countLe)]
  have hview : CrashDisk.view (⟨d, [], plan⟩ : Device) = d := rfl
  have hadopt : adoptHeader S.header d.marker = (S.header, none) := by
    rw [h.marker]
    rfl
  rw [openKind, hview, newestSlot_eq hdecode h.older]
  simp only [hadopt, hS.load fun b hb => h.intact b (Or.inr hb), ok_bind]
  rfl

theorem OnDisk.opens (h : OnDisk S slot d) (hS : S.Sound crc) (hk : StandsFor S k) :
    Opens crc d k := by
  refine fun path writable => ⟨_, h.opened hS path writable [], hk.header, rfl, fun b hb => ?_⟩
  have hlive : b ∈ S.live := by rwa [hk.live]
  have hapart := List.nodup_append.1 hS.nodup
  constructor
  · exact (h.intact b (Or.inl hlive)).trans (hk.blocks b hb)
  constructor
  · exact fun hfree => hapart.2.2 b (List.mem_append_left _ hlive) b hfree rfl
  · exact fun hchain => (List.nodup_append.1 hapart.1).2.2 b hlive b hchain rfl

/-! ### The file at work -/

/-- The blocks that are in no list a file was opened with, and not in use. -/
def Zu1File.unlisted (f : Zu1File) (live : List BlockPtr) : List BlockPtr :=
  (newBlocks 0 f.db.blockCount).filter fun b => b ∉ live ++ f.freeChain ++ f.free

/-- In how many places a block is. -/
def Zu1File.tally (f : Zu1File) (live : List BlockPtr) (b : BlockPtr) : ℕ :=
  live.count b + f.free.count b + f.frozen.count b + f.pendingFree.count b +
    f.freeChain.count b + f.waiting.count b

/-- A file whose blocks are each in use, in one of its lists or lost, and which a crash takes
back to a state that was published. -/
structure Anchored (crc : Bytes → UInt32) (f : Zu1File) (live lost : List BlockPtr)
    (S : Snapshot) : Prop where
  sound : S.Sound crc
  disk : OnDisk S f.activeSlot f.device.durable
  spares : Spares S.Reaches f.device.pending
  writable : f.writable = true
  savepoint : f.savepoint = none
  epoch : S.header.epoch ≤ f.db.epoch
  count : S.header.blockCount ≤ f.db.blockCount
  chain : f.freeChain = S.chain
  held : ∀ b ∈ S.live, b ∈ live ∨ b ∈ f.pendingFree
  parted : ∀ b, f.tally live b + lost.count b = (newBlocks 0 f.db.blockCount).count b

namespace Anchored

theorem alone (h : Anchored crc f live lost S) (b : BlockPtr) :
    f.tally live b + lost.count b ≤ 1 :=
  (h.parted b).trans_le (List.nodup_iff_count_le_one.1 (nodup_newBlocks 0 _) b)

theorem range (h : Anchored crc f live lost S) {b : BlockPtr} (hb : 0 < f.tally live b) :
    InRange f.db.blockCount b :=
  mem_newBlocks.1 (List.count_pos_iff.1 (by rw [← h.parted]; omega))

theorem apart (h : Anchored crc f live lost S) : (live ++ f.unreferenced).Nodup ∧
    ∀ b ∈ live ++ f.unreferenced, InRange f.db.blockCount b := by
  refine ⟨List.nodup_iff_count_le_one.2 fun b => ?_, fun b hb => h.range ?_⟩
  · have halone := h.alone b
    simp only [Zu1File.tally] at halone
    simp only [Zu1File.unreferenced, List.count_append]
    omega
  · rw [← List.count_pos_iff] at hb
    simp only [Zu1File.unreferenced, List.count_append] at hb
    simp only [Zu1File.tally]
    omega

theorem inRange (h : Anchored crc f live lost S) (hlive : ptr ∈ live) :
    InRange f.db.blockCount ptr := h.apart.2 ptr (List.mem_append_left _ hlive)

/-- A block that is free, or past the end, is not of the state that was published. -/
theorem fresh (h : Anchored crc f live lost S) {b : BlockPtr}
    (hb : b ∈ f.free ∨ f.db.blockCount < b) : ¬ S.Reaches b := by
  intro hreach
  have hold : b ∈ live ∨ b ∈ f.pendingFree ∨ b ∈ f.freeChain := by
    rcases hreach with hlive | hchain
    · exact (h.held b hlive).imp_right Or.inl
    · exact Or.inr (Or.inr (h.chain ▸ hchain))
  have hin : InRange S.header.blockCount b := by
    apply h.sound.range
    rw [List.append_assoc, List.mem_append, List.mem_append]
    exact hreach.imp_right Or.inl
  have hle : ¬ f.db.blockCount < b := not_lt.2 (hin.2.trans h.count)
  have halone := h.alone b
  simp only [Zu1File.tally] at halone
  simp only [← List.count_pos_iff] at hb hold
  omega

/-- Losing power leaves the state that was published. -/
theorem crash (h : Anchored crc f live lost S)
    (hd : Image f.device.pending f.device.durable d) : OnDisk S f.activeSlot d :=
  h.disk.spared (Image.spares hd h.spares)

/-- A disk that a snapshot is on is opened at that snapshot. -/
theorem opened (hdisk : OnDisk S slot d) (hS : S.Sound crc) {path : String} {plan : List Outcome}
    (hopen : openKind crc path true ⟨d, [], plan⟩ = .ok g) :
    g.db = S.header ∧ Anchored crc g S.live (g.unlisted S.live) S := by
  cases (hdisk.opened hS path true plan).symm.trans hopen
  refine ⟨rfl, hS, hdisk, nofun, rfl, rfl, le_rfl, le_rfl, rfl, fun b hb => Or.inl hb, fun b => ?_⟩
  change _ + ((newBlocks 0 S.header.blockCount).filter
    fun b => b ∉ S.live ++ S.chain ++ S.listed).count b = _
  simp only [Zu1File.tally, Zu1File.waiting, List.flatMap_nil, List.count_nil]
  by_cases hb : b ∈ S.live ++ S.chain ++ S.listed
  · have hone := List.count_eq_one_of_mem hS.nodup hb
    have hnew := List.count_eq_one_of_mem (nodup_newBlocks 0 _) (mem_newBlocks.2 (hS.range b hb))
    have hnone : b ∉ (newBlocks 0 S.header.blockCount).filter
        fun b => b ∉ S.live ++ S.chain ++ S.listed := fun hmem =>
      of_decide_eq_true (p := b ∉ _) (List.mem_filter.1 hmem).2 hb
    rw [List.count_eq_zero.2 hnone, hnew]
    simp only [List.count_append] at hone
    omega
  · have hnone := List.count_eq_zero.2 hb
    have hkept := List.count_filter (p := fun b => decide (b ∉ S.live ++ S.chain ++ S.listed))
      (l := newBlocks 0 S.header.blockCount) (decide_eq_true hb)
    rw [hkept]
    simp only [List.count_append] at hnone
    omega

end Anchored

/-! ### What the calls between two checkpoints do -/

/-- A call writes nothing but blocks that are in use and not published, and moves blocks between
the lists. It keeps what has been given back, and of what waits what waits on `floor` or later. -/
structure Works (f : Zu1File) (live : List BlockPtr) (S : Snapshot) (floor : Epoch) (g : Zu1File)
    (live' : List BlockPtr) : Prop where
  durable : g.device.durable = f.device.durable
  pending : ∃ ws, g.device.pending = f.device.pending ++ ws ∧
    ∀ w ∈ ws, ∃ ptr data, w = .block ptr data ∧ ptr ∈ live ∧ ptr ∉ S.live
  same : g.activeSlot = f.activeSlot ∧ g.writable = f.writable ∧ g.freeChain = f.freeChain ∧
    g.deferReclaim = f.deferReclaim
  savepoint : g.savepoint = none
  epoch : f.db.epoch ≤ g.db.epoch
  count : f.db.blockCount ≤ g.db.blockCount
  held : ∀ b ∈ live, b ∈ live' ∨ b ∈ g.pendingFree
  freed : ∀ b ∈ f.pendingFree, b ∈ g.pendingFree
  retained : ∀ r ∈ f.retained, floor ≤ r.1 → r ∈ g.retained
  tally : ∀ b, g.tally live' b =
    f.tally live b + (newBlocks f.db.blockCount g.db.blockCount).count b

theorem Works.idle (live : List BlockPtr) (S : Snapshot) (hs : f.savepoint = none) :
    Works f live S 0 f live :=
  ⟨rfl, ⟨[], (List.append_nil _).symm, nofun⟩, ⟨rfl, rfl, rfl, rfl⟩, hs, le_rfl, le_rfl,
    fun _ hb => Or.inl hb, fun _ hb => hb, fun _ hr _ => hr, fun _ => by rw [newBlocks_self]; rfl⟩

theorem works_allocateBlock (hs : f.savepoint = none)
    (hexec : allocateBlock.exec f = (.ok ptr, g)) : Works f live S 0 g (ptr :: live) := by
  obtain ⟨f₁, ⟨hrest, hle, -, hperm⟩, ⟨hD, hP⟩, d, rfl⟩ :=
    (allocateBlock_triple f _ _ f ⟨⟨rfl, rfl⟩, f.device, rfl⟩).1 ptr g hexec
  generalize f₁.free = free, f₁.db.blockCount = n, f₁.unpublished = u at hrest hle hperm
  subst hrest
  refine { Works.idle live S hs with
    durable := hD, pending := ⟨[], hP.trans (List.append_nil _).symm, nofun⟩, count := hle
    held := fun b hb => Or.inl (List.mem_cons_of_mem ptr hb), tally := fun b => ?_ }
  have hnew := hperm.count_eq b
  simp only [Zu1File.tally, Zu1File.waiting, Zu1File.withDevice, List.count_append, List.count_cons,
    List.count_nil] at hnew ⊢
  omega

theorem works_writeBlock (h : Anchored crc f live lost S) {data : Bytes} {r : Except ZuError Unit}
    (hlive : ptr ∈ live) (hnew : ptr ∉ S.live) (hexec : (writeBlock ptr data).exec f = (r, g)) :
    Works f live S 0 g live := by
  have hwrite := writeBlock_triple h.writable (h.inRange hlive) f.device.durable f.device.pending
    data f ⟨⟨rfl, rfl⟩, f.device, rfl⟩
  have hat : At f f.device.durable (f.device.pending ++ [.block ptr data]) g := by
    cases r with
    | ok u => exact hwrite.1 u g hexec
    | error e => exact hwrite.2 e g hexec
  obtain ⟨⟨hD, hP⟩, d, rfl⟩ := hat
  exact { Works.idle live S h.savepoint with
    durable := hD
    pending := ⟨_, hP, fun w hw => ⟨ptr, data, List.mem_singleton.1 hw, hlive, hnew⟩⟩ }

theorem works_freeBlock (h : Anchored crc f live lost S) (hlive : ptr ∈ live)
    (hexec : (freeBlock ptr).exec f = (.ok (), g)) : Works f live S 0 g (live.erase ptr) := by
  have heq : (freeBlock ptr).exec f =
      (.ok (), { f with pendingFree := f.pendingFree ++ [ptr] }) := by
    rw [freeBlock, exec_bind, exec_get]
    dsimp only
    rw [checkPtr_ok (h.inRange hlive)]
    rfl
  cases heq.symm.trans hexec
  refine { Works.idle live S h.savepoint with
    held := fun b hb => ?_, freed := fun b hb => List.mem_append_left _ hb, tally := fun b => ?_ }
  · by_cases heq : b = ptr
    · exact Or.inr (List.mem_append_right _ (List.mem_singleton.2 heq))
    · exact Or.inl ((List.mem_erase_of_ne heq).2 hb)
  · have herase := (List.perm_cons_erase hlive).count_eq b
    rw [newBlocks_self]
    simp only [Zu1File.tally, Zu1File.waiting, List.count_append, List.count_cons, List.count_nil]
      at herase ⊢
    omega

theorem works_stageFold (hs : f.savepoint = none) (hexec : stageFold.exec f = (.ok (), g)) :
    Works f live S 0 g live := by
  cases hexec
  refine { Works.idle live S hs with savepoint := ?_, epoch := Nat.le_succ _ }
  change f.savepoint.map _ = none
  rw [hs]
  rfl

theorem perm_flatMap_filter (floor : Epoch) (retained : List (Epoch × List BlockPtr)) :
    ((retained.filter fun e => e.1 < floor).flatMap Prod.snd ++
      (retained.filter fun e => ¬ e.1 < floor).flatMap Prod.snd).Perm
        (retained.flatMap Prod.snd) := by
  rw [← List.flatMap_append]
  apply List.Perm.flatMap_right
  have hperm := List.filter_append_perm (fun e : Epoch × List BlockPtr => decide (e.1 < floor)) retained
  simpa only [decide_not] using hperm

theorem releaseRetained_spec {f : Zu1File} (hs : f.savepoint = none) (floor : Epoch) :
    ∃ free retained, f.releaseRetained floor = { f with free, retained } ∧
      (free ++ retained.flatMap Prod.snd).Perm (f.free ++ f.waiting) ∧
      ∀ e ∈ f.retained, floor ≤ e.1 → e ∈ retained := by
  refine ⟨f.free ++ (f.retained.filter fun e => e.1 < floor).flatMap Prod.snd,
    f.retained.filter fun e => ¬ e.1 < floor, ?_, ?_, fun e he hle => ?_⟩
  · rw [Zu1File.releaseRetained]
    simp only [hs]
  · rw [List.append_assoc]
    exact (perm_flatMap_filter floor f.retained).append_left f.free
  · exact List.mem_filter.2 ⟨he, decide_eq_true (not_lt.2 hle)⟩

theorem works_releaseRetained (hs : f.savepoint = none) (floor : Epoch) :
    Works f live S floor (f.releaseRetained floor) live := by
  obtain ⟨free, retained, hg, hperm, hkeep⟩ := releaseRetained_spec hs floor
  rw [hg]
  refine { Works.idle live S hs with retained := hkeep, tally := fun b => ?_ }
  have hsplit := hperm.count_eq b
  rw [newBlocks_self]
  simp only [Zu1File.tally, Zu1File.waiting, List.count_append, List.count_nil] at hsplit ⊢
  omega

theorem Anchored.works (h : Anchored crc f live lost S) {floor : Epoch}
    (hw : Works f live S floor g live') : Anchored crc g live' lost S := by
  obtain ⟨ws, hP, hws⟩ := hw.pending
  obtain ⟨hslot, hwritable, hchain, -⟩ := hw.same
  refine ⟨h.sound, ?_, ?_, hwritable.trans h.writable, hw.savepoint, h.epoch.trans hw.epoch,
    h.count.trans hw.count, hchain.trans h.chain, fun b hb => ?_, fun b => ?_⟩
  · rw [hslot, hw.durable]
    exact h.disk
  · rw [hP]
    intro w hmem
    rcases List.mem_append.1 hmem with hmem | hmem
    · exact h.spares w hmem
    obtain ⟨ptr, data, rfl, hlive, hnew⟩ := hws w hmem
    refine ⟨ptr, data, rfl, fun hreach => ?_⟩
    rcases hreach with hold | hold
    · exact hnew hold
    · rw [← h.chain] at hold
      have halone := h.alone ptr
      simp only [Zu1File.tally] at halone
      rw [← List.count_pos_iff] at hlive hold
      omega
  · exact (h.held b hb).elim (hw.held b) fun hb => Or.inr (hw.freed b hb)
  · rw [hw.tally, ← newBlocks_append (Nat.zero_le _) hw.count, List.count_append, ← h.parted]
    omega

/-- A checkpoint loses no block it lists: each is free, or waits. Where the readers are
counted, what was reached waits. -/
theorem settle_spec (hs : f.savepoint = none) (all reached : List BlockPtr)
    (e : Epoch) : ∃ free retained,
      Zu1File.settle all reached e f = { f with free, retained, unpublished := 0 } ∧
        (free ++ retained.flatMap Prod.snd).Perm (all ++ f.waiting) ∧
        (f.deferReclaim = true → (∀ r ∈ f.retained, r ∈ retained) ∧
          ∀ b ∈ all, b ∈ reached → ∃ r ∈ retained, r.1 = e ∧ b ∈ r.2) := by
  obtain ⟨held, hheld⟩ : ∃ held, held = all.filter (· ∈ reached) := ⟨_, rfl⟩
  obtain ⟨retained, hretained⟩ : ∃ retained,
      retained = if held = [] then f.retained else f.retained ++ [(e, held)] := ⟨_, rfl⟩
  obtain ⟨g, hg⟩ : ∃ g : Zu1File, g = { f with free := all.filter (· ∉ reached), retained } :=
    ⟨_, rfl⟩
  have hsettle : Zu1File.settle all reached e f = { g.reclaim with unpublished := 0 } := by
    rw [Zu1File.settle, ← hheld, hg, hretained]
    by_cases hnone : held = []
    · simp only [if_pos hnone, hs]
    · simp only [if_neg hnone, hs]
  have hsplit : (g.free ++ g.waiting).Perm (all ++ f.waiting) := by
    have hwaiting : (retained.flatMap Prod.snd).Perm (held ++ f.waiting) := by
      rw [hretained]
      split
      case isTrue hnone =>
        rw [hnone]
        rfl
      case isFalse =>
        rw [List.flatMap_append, List.flatMap_singleton]
        exact List.perm_append_comm
    have hall : (held ++ all.filter (· ∉ reached)).Perm all := by
      rw [hheld]
      simpa only [decide_not] using List.filter_append_perm (fun b => decide (b ∈ reached)) all
    rw [hg]
    change (all.filter (· ∉ reached) ++ retained.flatMap Prod.snd).Perm _
    apply List.perm_iff_count.2
    intro b
    have hcount := hwaiting.count_eq b
    have hcount' := hall.count_eq b
    simp only [List.count_append] at hcount hcount' ⊢
    omega
  rw [hsettle, Zu1File.reclaim]
  split
  case isTrue =>
    refine ⟨g.free, g.retained, by rw [hg], hsplit, fun _ => ⟨fun r hr => ?_, fun b hb hin => ?_⟩⟩
    · rw [hg, hretained]
      split
      · exact hr
      · exact List.mem_append_left _ hr
    · have hmem : b ∈ held := hheld ▸ List.mem_filter.2 ⟨hb, decide_eq_true hin⟩
      rw [hg, hretained, if_neg (List.ne_nil_of_mem hmem)]
      exact ⟨(e, held), List.mem_append_right _ (List.mem_singleton_self _), rfl, hmem⟩
  case isFalse hoff =>
    have hnone : g.savepoint = none := by rw [hg, hs]
    obtain ⟨free, retained', hrelease, hperm, -⟩ := releaseRetained_spec hnone u64Max
    refine ⟨free, retained', by rw [hrelease, hg], hperm.trans hsplit, fun hon => ?_⟩
    exact absurd (by rw [hg]; exact hon) hoff

/-! ### Publishing -/

theorem checkpoint_exec (hw : f.writable = true) (hs : f.savepoint = none) :
    (checkpoint crc).exec f = (publish crc).exec f := by
  rw [checkpoint, checkWritable, keepSavepoint]
  simp only [exec_bind, exec_get, if_pos hw, exec_pure, hs]

/-- The lists of a file that has published. -/
theorem Published.lists {D : Disk} {P : List Write} (h : Published crc f live D P N extra g)
    (hs : f.savepoint = none) : ∃ free retained,
      g = { f with
        device := g.device, db := N.header, activeSlot := 1 - f.activeSlot
        free, pendingFree := [], freeChain := N.chain, frozen := [], retained
        unpublished := 0 } ∧
      (free ++ retained.flatMap Prod.snd).Perm (N.listed ++ extra ++ f.waiting) ∧
      (f.deferReclaim = true → (∀ r ∈ f.retained, r ∈ retained) ∧
        ∀ b ∈ N.listed ++ extra, b ∈ f.pendingFree ++ f.freeChain →
          ∃ r ∈ retained, r.1 = f.db.epoch ∧ b ∈ r.2) := by
  obtain ⟨u, hrest⟩ := h.rest
  obtain ⟨free, retained, hsettle, hlists⟩ := settle_spec (f := { f with
    db := N.header, activeSlot := 1 - f.activeSlot, free := [], pendingFree := []
    freeChain := N.chain, frozen := [], unpublished := u }) hs
    (N.listed ++ extra) (f.pendingFree ++ f.freeChain) f.db.epoch
  rw [hsettle] at hrest
  exact ⟨free, retained, hrest, hlists⟩

/-- The slot a checkpoint writes is not the one it was opened from. -/
theorem other_slot (slot : Fin 2) : 1 - (1 - slot) = slot := by revert slot; decide

theorem setSlot_other (d : Disk) (slot : Fin 2) (h : Option DatabaseHeader) :
    (d.setSlot (1 - slot) h).slots slot = d.slots slot :=
  Function.update_of_ne (by revert slot; decide) _ _

theorem setSlot_self (d : Disk) (slot : Fin 2) (h : Option DatabaseHeader) :
    (d.setSlot slot h).slots slot = h := Function.update_self _ _ _

section

variable (hdraft : Drafted crc f live f.device.durable f.device.pending N extra)

include hdraft

/-- The new state has the blocks in use as they are. -/
theorem standsFor_of_drafted : StandsFor N ⟨N.header, live, f.device.view.blocks⟩ := by
  refine ⟨rfl, hdraft.live_eq, fun b hb => ?_⟩
  have hspares : Spares (· ∈ live) (linkWrites crc N.links) := by
    apply (into_linkWrites N.links).spares
    intro c hc hlive
    rw [← hdraft.live_eq] at hlive
    exact (List.nodup_append.1 (List.nodup_append.1 hdraft.sound.nodup).1).2.2 c hlive c hc rfl
  rw [hdraft.blocks, applyAll_append]
  exact (applyAll_spares _ hspares).2.2 b hb

variable (h : Anchored crc f live lost S)

include h

/-- With its list down and its header not, the last state is what there is. -/
theorem before_flip : OnDisk S f.activeSlot
    (applyAll (f.device.pending ++ linkWrites crc N.links) f.device.durable) := by
  refine h.disk.spared (applyAll_spares _ fun w hw => ?_)
  rcases List.mem_append.1 hw with hw | hw
  · exact h.spares w hw
  · exact (into_linkWrites N.links).spares (fun b hb => h.fresh (hdraft.source b hb)) w hw

/-- With its header down as well, it is the new one. -/
theorem after_flip : OnDisk N (1 - f.activeSlot)
    ((applyAll (f.device.pending ++ linkWrites crc N.links) f.device.durable).setSlot
      (1 - f.activeSlot) (some N.header)) := by
  have hbefore := before_flip hdraft h
  refine ⟨setSlot_self _ _ _, fun old hold => ?_, hbefore.marker, fun b hb => ?_⟩
  · rw [other_slot, setSlot_other, hbefore.header] at hold
    obtain rfl := Option.some.inj (Option.filter_eq_some_iff.1 hold).1
    rw [hdraft.header]
    exact Nat.lt_succ_of_le h.epoch
  · rw [hdraft.blocks]
    rfl

end

namespace Anchored

/-- A checkpoint that returned has published the state the file was in. -/
theorem published (h : Anchored crc f live lost S)
    (hpub : Published crc f live f.device.durable f.device.pending N extra g) :
    Anchored crc g live lost N := by
  have hdraft := hpub.drafted
  obtain ⟨free, retained, hg, hperm, -⟩ := hpub.lists h.savepoint
  constructor
  · exact hdraft.sound
  · rw [hpub.durable, hg]
    exact after_flip hdraft h
  · rw [hpub.pending]
    exact nofun
  · rw [hg]
    exact h.writable
  · rw [hg]
    exact h.savepoint
  · rw [hg]
  · rw [hg]
  · rw [hg]
  · rw [hdraft.live_eq]
    exact fun b hb => Or.inl hb
  · intro b
    have hold := h.parted b
    have hnew := hdraft.perm.count_eq b
    have hsplit := hperm.count_eq b
    rw [hg]
    change _ = (newBlocks 0 N.header.blockCount).count b
    rw [← newBlocks_append (Nat.zero_le _) hdraft.le]
    simp only [Zu1File.tally, Zu1File.unreferenced, Zu1File.waiting, List.count_append,
      List.count_nil] at hold hnew hsplit ⊢
    omega

theorem checkpointed (h : Anchored crc f live lost S) (hroom : 2 * f.db.blockCount ≤ maxBlockCount)
    (hexec : (checkpoint crc).exec f = (.ok (), g)) :
    ∃ N extra, Published crc f live f.device.durable f.device.pending N extra g :=
  (publish_triple h.writable h.apart.1 h.apart.2 hroom _ _ f ⟨⟨rfl, rfl⟩, f.device, rfl⟩).1 () g
    ((checkpoint_exec h.writable h.savepoint).symm.trans hexec)

/-- Cut off wherever it is, a checkpoint has published nothing or the new state. -/
theorem cut (h : Anchored crc f live lost S) (hroom : 2 * f.db.blockCount ≤ maxBlockCount)
    {r : Except ZuError Unit} (hexec : (checkpoint crc).exec f = (r, g))
    (hd : Image g.device.pending g.device.durable d) :
    OnDisk S f.activeSlot d ∨ ∃ N extra,
      Drafted crc f live f.device.durable f.device.pending N extra ∧
        OnDisk N (1 - f.activeSlot) d := by
  rw [checkpoint_exec h.writable h.savepoint] at hexec
  have htriple := @publish_triple crc _ h.writable _ h.apart.1 h.apart.2 hroom _ _ f
    ⟨⟨rfl, rfl⟩, f.device, rfl⟩
  match r with
  | .ok u =>
      obtain ⟨N, extra, hpub⟩ := htriple.1 u g hexec
      rw [hpub.pending, hpub.durable] at hd
      cases hd
      exact Or.inr ⟨N, extra, hpub.drafted, after_flip hpub.drafted h⟩
  | .error e =>
      rcases htriple.2 e g hexec with ⟨ws, hinto, hD, hP⟩ | ⟨N, extra, hdraft, hD, hP⟩
      · rw [hD, hP] at hd
        refine Or.inl (h.disk.spared (Image.spares hd fun w hw => ?_))
        rcases List.mem_append.1 hw with hw | hw
        · exact h.spares w hw
        · exact hinto.spares (fun b hb => h.fresh hb) w hw
      have hbefore := before_flip hdraft h
      rw [hD] at hd
      rcases hP with hP | hP
      · rw [hP] at hd
        cases hd
        exact Or.inl hbefore
      · rw [hP] at hd
        -- the header is lost, whole or torn
        obtain _ | ⟨hone, hrest⟩ := hd
        cases hrest
        cases hone with
        | lost => exact Or.inl hbefore
        | whole => exact Or.inr ⟨N, extra, hdraft, after_flip hdraft h⟩
        | torn htorn =>
            obtain rfl := htorn
            refine Or.inl ⟨?_, fun old hold => ?_, hbefore.marker, hbefore.intact⟩
            · rw [setSlot_other]
              exact hbefore.header
            · rw [setSlot_self] at hold
              cases hold

end Anchored

/-! ### Readers -/

/-- What a reader on a state that was published finds. -/
structure Pinned (f : Zu1File) (live : List BlockPtr) (S : Snapshot) (p : Kept) : Prop where
  epoch : p.db.epoch ≤ S.header.epoch
  held : ∀ b ∈ p.live, (b ∈ live ∧ b ∈ S.live) ∨ b ∈ f.pendingFree ∨
    ∃ r ∈ f.retained, p.db.epoch ≤ r.1 ∧ b ∈ r.2
  reads : ∀ b ∈ p.live, f.device.view.blocks b = p.blocks b

/-- A block of a reader is not free, nor past the end, nor one that may be written. -/
theorem Anchored.guarded (h : Anchored crc f live lost S) (hp : Pinned f live S p) {b : BlockPtr}
    (hb : b ∈ p.live) : b ∉ f.free ∧ b ≤ f.db.blockCount ∧ (b ∈ live → b ∈ S.live) := by
  have hheld : (b ∈ live ∧ b ∈ S.live) ∨ b ∈ f.pendingFree ∨ b ∈ f.waiting := by
    refine (hp.held b hb).imp_right (Or.imp_right ?_)
    rintro ⟨r, hr, -, hmem⟩
    exact List.mem_flatMap.2 ⟨r, hr, hmem⟩
  have halone := h.alone b
  have hrange := h.range (b := b)
  simp only [Zu1File.tally] at halone hrange
  simp only [← List.count_pos_iff] at hheld ⊢
  exact ⟨by omega, (hrange (by omega)).2, by omega⟩

namespace Pinned

/-- A reader opens the state that was published last. -/
theorem opened (h : Anchored crc f live lost S) (hk : StandsFor S k) : Pinned f live S k := by
  refine ⟨hk.header ▸ le_rfl, fun b hb => ?_, fun b hb => ?_⟩
  · have hold : b ∈ S.live := by rwa [hk.live]
    exact (h.held b hold).imp (fun hmem => ⟨hmem, hold⟩) Or.inl
  · have hreach : S.Reaches b := Or.inl (by rwa [hk.live])
    exact ((applyAll_spares _ h.spares).2.2 b hreach).trans
      ((h.disk.intact b hreach).trans (hk.blocks b hb))

theorem works (h : Anchored crc f live lost S) (hp : Pinned f live S p) {floor : Epoch}
    (hw : Works f live S floor g live') (hfloor : floor ≤ p.db.epoch) : Pinned g live' S p := by
  obtain ⟨ws, hP, hws⟩ := hw.pending
  refine ⟨hp.epoch, fun b hb => ?_, fun b hb => ?_⟩
  · rcases hp.held b hb with ⟨hmem, hold⟩ | hmem | ⟨r, hr, hle, hmem⟩
    · exact (hw.held b hmem).imp (fun hmem => ⟨hmem, hold⟩) Or.inl
    · exact Or.inr (Or.inl (hw.freed b hmem))
    · exact Or.inr (Or.inr ⟨r, hw.retained r hr (hfloor.trans hle), hle, hmem⟩)
  · have hspares : Spares (· ∈ p.live) ws := by
      intro w hmem
      obtain ⟨ptr, data, heq, hlive, hnew⟩ := hws w hmem
      exact ⟨ptr, data, heq, fun hptr => hnew ((h.guarded hp hptr).2.2 hlive)⟩
    rw [CrashDisk.view, hw.durable, hP, applyAll_append]
    exact ((applyAll_spares _ hspares).2.2 b hb).trans (hp.reads b hb)

/-- Where the readers are counted, publishing takes nothing from them. -/
theorem published (h : Anchored crc f live lost S) (hp : Pinned f live S p)
    (hdefer : f.deferReclaim = true)
    (hpub : Published crc f live f.device.durable f.device.pending N extra g) :
    Pinned g live N p := by
  have hdraft := hpub.drafted
  obtain ⟨free, retained, hg, -, hwait⟩ := hpub.lists h.savepoint
  obtain ⟨hkeep, hadd⟩ := hwait hdefer
  have hretained : g.retained = retained := by rw [hg]
  refine ⟨?_, fun b hb => ?_, fun b hb => ?_⟩
  · rw [hdraft.header]
    exact hp.epoch.trans (Nat.le_succ_of_le h.epoch)
  · rw [hdraft.live_eq, hretained]
    rcases hp.held b hb with ⟨hmem, -⟩ | hmem | ⟨r, hr, hle, hmem⟩
    · exact Or.inl ⟨hmem, hmem⟩
    · have hlisted : b ∈ N.listed ++ extra := by
        have hall : b ∈ N.listed ++ extra ++ N.chain := by
          apply hdraft.perm.symm.subset
          simp only [Zu1File.unreferenced, List.mem_append]
          tauto
        refine (List.mem_append.1 hall).resolve_right fun hchain => ?_
        obtain ⟨hfree, hle, -⟩ := h.guarded hp hb
        exact (hdraft.source b hchain).elim hfree (not_lt.2 hle)
      obtain ⟨r, hr, heq, hmem⟩ := hadd b hlisted (List.mem_append_left _ hmem)
      exact Or.inr (Or.inr ⟨r, hr, heq ▸ hp.epoch.trans h.epoch, hmem⟩)
    · exact Or.inr (Or.inr ⟨r, hkeep r hr, hle, hmem⟩)
  · have hspares : Spares (· ∈ p.live) (linkWrites crc N.links) := by
      apply (into_linkWrites N.links).spares
      intro c hc hmem
      obtain ⟨hfree, hle, -⟩ := h.guarded hp hmem
      exact (hdraft.source c hc).elim hfree (not_lt.2 hle)
    rw [CrashDisk.view, hpub.pending, hpub.durable, applyAll_append]
    exact ((applyAll_spares _ hspares).2.2 b hb).trans (hp.reads b hb)

end Pinned

end

/-! ### A file in use -/

/-- The roots are moved to those of a header. -/
def Zu1File.moveRoots (roots : DatabaseHeader) (f : Zu1File) : Zu1File :=
  { f with
    db := { f.db with
      catalogRoot := roots.catalogRoot, tableIndexRoot := roots.tableIndexRoot
      statsRoot := roots.statsRoot, walSeq := roots.walSeq } }

variable (crc) in
/-- A file in use, with the blocks in use and the lost ones, the state that was published last and
those that readers are on. A block is written once it is taken and before it is published, and what
a reader is on is not given back. Any call may fail; after a checkpoint has, the file is opened
again. -/
inductive Reached : Zu1File → List BlockPtr → List BlockPtr → Kept → List Kept → Prop
  | created (path : String) (plan : List Outcome) :
      Reached { create path with device := { (create path).device with plan } } [] []
        ⟨(create path).db, [], (create path).device.view.blocks⟩ []
  | allocated {f g live lost k pins ptr} (h : Reached f live lost k pins)
      (hexec : allocateBlock.exec f = (.ok ptr, g)) : Reached g (ptr :: live) lost k pins
  | wrote {f g live lost k pins ptr data r} (h : Reached f live lost k pins) (hlive : ptr ∈ live)
      (hnew : ptr ∉ k.live) (hexec : (writeBlock ptr data).exec f = (r, g)) :
      Reached g live lost k pins
  | freed {f g live lost k pins ptr} (h : Reached f live lost k pins) (hlive : ptr ∈ live)
      (hexec : (freeBlock ptr).exec f = (.ok (), g)) : Reached g (live.erase ptr) lost k pins
  | moved {f live lost k pins} (h : Reached f live lost k pins) (roots : DatabaseHeader) :
      Reached (f.moveRoots roots) live lost k pins
  | staged {f g live lost k pins} (h : Reached f live lost k pins)
      (hexec : stageFold.exec f = (.ok (), g)) : Reached g live lost k pins
  | deferred {f live lost k pins} (h : Reached f live lost k pins) (on : Bool)
      (hon : pins ≠ [] → on = true) : Reached { f with deferReclaim := on } live lost k pins
  | pinned {f live lost k pins} (h : Reached f live lost k pins) (hon : f.deferReclaim = true) :
      Reached f live lost k (k :: pins)
  | unpinned {f live lost k pins pins'} (h : Reached f live lost k pins) (hsub : pins' ⊆ pins) :
      Reached f live lost k pins'
  | released {f live lost k pins} (h : Reached f live lost k pins) (floor : Epoch)
      (hfloor : ∀ p ∈ pins, floor ≤ p.db.epoch) :
      Reached (f.releaseRetained floor) live lost k pins
  | published {f g live lost k pins} (h : Reached f live lost k pins)
      (hroom : 2 * f.db.blockCount ≤ maxBlockCount)
      (hexec : (checkpoint crc).exec f = (.ok (), g)) :
      Reached g live lost ⟨g.db, live, f.device.view.blocks⟩ pins
  | reopened {f g live lost k pins d path plan} (h : Reached f live lost k pins)
      (hd : Image f.device.pending f.device.durable d)
      (hopen : openKind crc path true ⟨d, [], plan⟩ = .ok g) :
      Reached g k.live (g.unlisted k.live) k []
  | recovered {f g live lost k pins r f' d path plan k'} (h : Reached f live lost k pins)
      (hroom : 2 * f.db.blockCount ≤ maxBlockCount) (hexec : (checkpoint crc).exec f = (r, f'))
      (hd : Image f'.device.pending f'.device.durable d)
      (hopen : openKind crc path true ⟨d, [], plan⟩ = .ok g)
      (hk : k' = if g.db.epoch ≤ f.db.epoch then k else ⟨g.db, live, f.device.view.blocks⟩) :
      Reached g k'.live (g.unlisted k'.live) k' []

/-- What every step keeps. -/
structure Safe (crc : Bytes → UInt32) (f : Zu1File) (live lost : List BlockPtr) (k : Kept)
    (pins : List Kept) (S : Snapshot) : Prop where
  anchored : Anchored crc f live lost S
  stands : StandsFor S k
  counted : pins ≠ [] → f.deferReclaim = true
  pinned : ∀ p ∈ pins, Pinned f live S p

variable {f g : Zu1File} {live live' lost : List BlockPtr} {S : Snapshot} {k : Kept}
  {pins : List Kept}

theorem safe_create (path : String) (plan : List Outcome) :
    ∃ S, Safe crc { create path with device := { (create path).device with plan } } [] []
      ⟨(create path).db, [], (create path).device.view.blocks⟩ [] S := by
  let S : Snapshot :=
    { header := { epoch := 1 }, live := [], links := [], listed := [], blocks := fun _ => [] }
  have hS : S.Sound crc :=
    ⟨Nat.zero_le _, rfl, trivial, nofun, rfl, List.nodup_nil, nofun⟩
  have hdisk : OnDisk S 0 (create path).device.durable := by
    refine ⟨rfl, nofun, rfl, fun b hb => ?_⟩
    rcases hb with hb | hb <;> cases hb
  exact ⟨S, ⟨hS, hdisk, nofun, rfl, rfl, le_rfl, le_rfl, rfl, nofun, fun _ => rfl⟩,
    ⟨rfl, rfl, nofun⟩, fun h => absurd rfl h, nofun⟩

/-- A disk with a state on it is opened to be safe. -/
theorem safe_opened {slot : Fin 2} {d : Disk} (hdisk : OnDisk S slot d) (hS : S.Sound crc) (hk : StandsFor S k)
    {path : String} {plan : List Outcome} (hopen : openKind crc path true ⟨d, [], plan⟩ = .ok g) :
    Safe crc g k.live (g.unlisted k.live) k [] S := by
  have hopened := Anchored.opened hdisk hS hopen
  rw [hk.live] at hopened
  exact ⟨hopened.2, hk, fun h => absurd rfl h, nofun⟩

theorem Safe.works (h : Safe crc f live lost k pins S) {floor : Epoch}
    (hw : Works f live S floor g live') (hfloor : ∀ p ∈ pins, floor ≤ p.db.epoch) :
    Safe crc g live' lost k pins S :=
  ⟨h.anchored.works hw, h.stands, fun hne => hw.same.2.2.2.trans (h.counted hne),
    fun p hp => (h.pinned p hp).works h.anchored hw (hfloor p hp)⟩

theorem Reached.safe (h : Reached crc f live lost k pins) : ∃ S, Safe crc f live lost k pins S := by
  induction h with
  | created path plan => exact safe_create path plan
  | allocated _ hexec ih =>
      obtain ⟨S, ih⟩ := ih
      exact ⟨S, ih.works (works_allocateBlock ih.anchored.savepoint hexec) fun _ _ => Nat.zero_le _⟩
  | wrote _ hlive hnew hexec ih =>
      obtain ⟨S, ih⟩ := ih
      rw [← ih.stands.live] at hnew
      exact ⟨S, ih.works (works_writeBlock ih.anchored hlive hnew hexec) fun _ _ => Nat.zero_le _⟩
  | freed _ hlive hexec ih =>
      obtain ⟨S, ih⟩ := ih
      exact ⟨S, ih.works (works_freeBlock ih.anchored hlive hexec) fun _ _ => Nat.zero_le _⟩
  | moved _ roots ih =>
      obtain ⟨S, ih⟩ := ih
      exact ⟨S, { ih.anchored with }, ih.stands, ih.counted, fun p hp => { ih.pinned p hp with }⟩
  | staged _ hexec ih =>
      obtain ⟨S, ih⟩ := ih
      exact ⟨S, ih.works (works_stageFold ih.anchored.savepoint hexec) fun _ _ => Nat.zero_le _⟩
  | deferred _ on hon ih =>
      obtain ⟨S, ih⟩ := ih
      exact ⟨S, { ih.anchored with }, ih.stands, hon, fun p hp => { ih.pinned p hp with }⟩
  | pinned _ hon ih =>
      obtain ⟨S, ih⟩ := ih
      exact ⟨S, ih.anchored, ih.stands, fun _ => hon,
        List.forall_mem_cons.2 ⟨Pinned.opened ih.anchored ih.stands, ih.pinned⟩⟩
  | unpinned _ hsub ih =>
      obtain ⟨S, ih⟩ := ih
      exact ⟨S, ih.anchored, ih.stands, fun hne => ih.counted fun hnil => hne
        (List.subset_nil.1 (hnil ▸ hsub)), fun p hp => ih.pinned p (hsub hp)⟩
  | released _ floor hfloor ih =>
      obtain ⟨S, ih⟩ := ih
      exact ⟨S, ih.works (works_releaseRetained ih.anchored.savepoint floor) hfloor⟩
  | published _ hroom hexec ih =>
      obtain ⟨S, ih⟩ := ih
      obtain ⟨N, extra, hpub⟩ := ih.anchored.checkpointed hroom hexec
      obtain ⟨free, retained, hg, -⟩ := hpub.lists ih.anchored.savepoint
      have hdb : N.header = _ := (congrArg Zu1File.db hg).symm
      have hstands := standsFor_of_drafted hpub.drafted
      refine ⟨N, ih.anchored.published hpub, hdb ▸ hstands, fun hne => ?_, fun p hp =>
        (ih.pinned p hp).published ih.anchored (ih.counted (List.ne_nil_of_mem hp)) hpub⟩
      rw [hg]
      exact ih.counted hne
  | reopened _ hd hopen ih =>
      obtain ⟨S, ih⟩ := ih
      exact ⟨S, safe_opened (ih.anchored.crash hd) ih.anchored.sound ih.stands hopen⟩
  | recovered _ hroom hexec hd hopen hk ih =>
      obtain ⟨S, ih⟩ := ih
      rcases ih.anchored.cut hroom hexec hd with hold | ⟨N, extra, hdraft, hnew⟩
      · have hdb := (Anchored.opened hold ih.anchored.sound hopen).1
        rw [if_pos (hdb ▸ ih.anchored.epoch)] at hk
        rw [hk]
        exact ⟨S, safe_opened hold ih.anchored.sound ih.stands hopen⟩
      · have hdb := (Anchored.opened hnew hdraft.sound hopen).1
        rw [if_neg (by rw [hdb, hdraft.header]; exact Nat.not_succ_le_self _), hdb] at hk
        rw [hk]
        exact ⟨N, safe_opened hnew hdraft.sound (standsFor_of_drafted hdraft) hopen⟩

/-! ### What holds in every run -/

/-- Wherever the power goes, an open finds the state published last; during a checkpoint it
finds that or the one the file is in. -/
theorem crash_recovers (h : Reached crc f live lost k pins) :
    (∀ d, Image f.device.pending f.device.durable d → Opens crc d k) ∧
      (2 * f.db.blockCount ≤ maxBlockCount → ∀ r g, (checkpoint crc).exec f = (r, g) →
        ∀ d, Image g.device.pending g.device.durable d → Opens crc d k ∨ ∃ n root,
          Opens crc d
            ⟨{ f.db with epoch := f.db.epoch + 1, blockCount := n, freeListRoot := root }, live,
              f.device.view.blocks⟩) := by
  obtain ⟨S, hsafe⟩ := h.safe
  have hopens := hsafe.anchored.sound
  refine ⟨fun d hd => (hsafe.anchored.crash hd).opens hopens hsafe.stands,
    fun hroom r g hexec d hd => ?_⟩
  rcases hsafe.anchored.cut hroom hexec hd with hold | ⟨N, extra, hdraft, hnew⟩
  · exact Or.inl (hold.opens hopens hsafe.stands)
  · have hstands := standsFor_of_drafted hdraft
    rw [hdraft.header] at hstands
    exact Or.inr ⟨_, _, hnew.opens hdraft.sound hstands⟩

/-- Every block of the file is in one place, and none that was published is free. -/
theorem blocks_partition (h : Reached crc f live lost k pins) :
    (live ++ f.free ++ f.frozen ++ f.pendingFree ++ f.freeChain ++ f.waiting ++ lost).Perm
        (List.range' 1 f.db.blockCount) ∧
      ∀ b ∈ k.live, b ∉ f.free := by
  obtain ⟨S, hsafe⟩ := h.safe
  refine ⟨List.perm_iff_count.2 fun b => ?_, fun b hb hfree => ?_⟩
  · simp only [List.count_append]
    exact hsafe.anchored.parted b
  · rw [← hsafe.stands.live] at hb
    exact hsafe.anchored.fresh (Or.inl hfree) (Or.inl hb)

/-- Whatever is taken, written, given back and published, a reader finds every block of the
state it is on as it was published, and none of them is free to be written. -/
theorem reader_isolated (h : Reached crc f live lost k pins) :
    ∀ p ∈ pins, ∀ b ∈ p.live, f.device.view.blocks b = p.blocks b ∧ b ∉ f.free := by
  intro p hp b hb
  obtain ⟨S, hsafe⟩ := h.safe
  have hpinned := hsafe.pinned p hp
  exact ⟨hpinned.reads b hb, (hsafe.anchored.guarded hpinned hb).1⟩

/-- A file of one block, that is written and published while a reader waits. -/
def oneBlock : Zu1File :=
  { create "people.zu1" with
    device := { (create "people.zu1").device with pending := [.block 1 [7]] }
    db := { (create "people.zu1").db with blockCount := 1 }
    unpublished := 1, deferReclaim := true }

theorem reached_oneBlock : Reached (fun _ => 0) oneBlock [1] []
    ⟨(create "people.zu1").db, [], (create "people.zu1").device.view.blocks⟩ [] :=
  have htaken := (Reached.created "people.zu1" []).allocated
    (rfl : allocateBlock.exec _ = (.ok 1, _))
  have hwritten := htaken.wrote List.mem_cons_self List.not_mem_nil
    (rfl : (writeBlock 1 [7]).exec _ = (.ok (), _))
  hwritten.deferred true fun h => absurd rfl h

theorem crash_recovers_oneBlock : Opens (fun _ => 0) (oneBlock.device.durable.setBlock 1 [7])
    ⟨{ epoch := 1 }, [], fun _ => []⟩ :=
  (crash_recovers reached_oneBlock).1 _ (Image.whole oneBlock.device.pending _)

theorem blocks_partition_oneBlock : [1].Perm (List.range' 1 oneBlock.db.blockCount) :=
  (blocks_partition reached_oneBlock).1

theorem reader_isolated_oneBlock :
    ((checkpoint fun _ => 0).exec oneBlock).2.device.view.blocks 1 = oneBlock.device.view.blocks 1 ∧
      1 ∉ ((checkpoint fun _ => 0).exec oneBlock).2.free :=
  reader_isolated ((reached_oneBlock.published (by decide) rfl).pinned rfl) _ List.mem_cons_self 1
    List.mem_cons_self

end Zu.File
