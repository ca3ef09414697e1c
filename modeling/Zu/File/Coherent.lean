import Zu.File.Sweep

/-!
# What the cache keeps

A frame is in one slot only, and a slot that holds a block has what the file has. What
is taken for another block is not pinned, so nobody sees a frame change under a pin.
-/

namespace Zu.File

open Lib

namespace Cached

/-- What holds of a cached file whatever was done to it. -/
structure Coherent (c : Cached) : Prop where
  sound : ∀ k, (c.shard k).Sound k
  budget : ∀ k, (c.shard k).slots.length ≤ c.perShard
  apart : ∀ (k k' i i' : ℕ) (f : Frame), (c.shard k).frames[i]? = some f →
    (c.shard k').frames[i']? = some f → k = k' ∧ i = i'
  slotOld : ∀ (k i : ℕ) (f : Frame), (c.shard k).frames[i]? = some f → f < c.fresh
  pinOld : ∀ f, c.Pinned f → f < c.fresh
  held : ∀ (k i : ℕ) (p : BlockPtr) (f : Frame), (c.shard k).ptrs[i]? = some p →
    (c.shard k).frames[i]? = some f → p ≠ nullBlock → c.bytes f = c.disk p
  memo : ∀ p f, c.memo = some (p, f) → c.bytes f = c.disk p

theorem coherent_new (budget : ℕ) (disk : BlockPtr → Bytes) (blockCount : ℕ) :
    (new budget disk blockCount).Coherent where
  sound := fun _ =>
    { mapped := fun _ _ => ⟨fun h => (nomatch h), fun h => (nomatch h.2)⟩
      home := fun _ _ h => (nomatch h)
      hand := Or.inl rfl }
  budget := fun _ => Nat.zero_le _
  apart := fun _ _ _ _ _ h => (nomatch h)
  slotOld := fun _ _ _ h => (nomatch h)
  pinOld := fun _ h => h.elim (fun h => absurd h List.not_mem_nil) fun h => (nomatch h)
  held := fun _ _ _ _ h => (nomatch h)
  memo := fun _ _ h => (nomatch h)

theorem setShard_self (c : Cached) (ptr : BlockPtr) (s : Shard) :
    (c.setShard ptr s).home ptr = s := Function.update_self _ _ _

/-- Every shard of the one is kept by the other. -/
theorem keeps_setShard {c : Cached} {ptr : BlockPtr} {s : Shard} (h : (c.home ptr).Keeps s)
    (k : ℕ) : (c.shard k).Keeps ((c.setShard ptr s).shard k) := by
  change (c.shard k).Keeps (Function.update c.shard (ptr % shards) s k)
  by_cases hk : k = ptr % shards
  · rw [hk, Function.update_self]
    exact h
  · rw [Function.update_of_ne hk]
    exact Shard.Keeps.refl _

theorem sound_setShard {c : Cached} (h : c.Coherent) {ptr : BlockPtr} {s : Shard}
    (hs : s.Sound (ptr % shards)) (k : ℕ) : ((c.setShard ptr s).shard k).Sound k := by
  change (Function.update c.shard (ptr % shards) s k).Sound k
  by_cases hk : k = ptr % shards
  · rw [hk, Function.update_self]
    exact hs
  · rw [Function.update_of_ne hk]
    exact h.sound k

theorem Coherent.setShard {c : Cached} (h : c.Coherent) {ptr : BlockPtr} {s : Shard}
    (hs : s.Sound (ptr % shards)) (hkeeps : (c.home ptr).Keeps s) :
    (c.setShard ptr s).Coherent := by
  have hall := keeps_setShard hkeeps
  constructor
  · exact sound_setShard h hs
  · intro k
    rw [(hall k).length]
    exact h.budget k
  · intro k k' i i' f hi hi'
    rw [(hall k).frames] at hi
    rw [(hall k').frames] at hi'
    exact h.apart k k' i i' f hi hi'
  · intro k i f hi
    rw [(hall k).frames] at hi
    exact h.slotOld k i f hi
  · exact h.pinOld
  · intro k i p f hp hf hnull
    rw [(hall k).frames] at hf
    exact h.held k i p f ((hall k).ptrs i p hp hnull) hf hnull
  · exact h.memo

theorem Coherent.pin {c : Cached} (h : c.Coherent) {f : Frame} (hf : f < c.fresh) :
    (c.pin f).Coherent where
  sound := h.sound
  budget := h.budget
  apart := h.apart
  slotOld := h.slotOld
  pinOld := by
    intro g hg
    cases hg with
    | inl hg =>
        cases List.mem_cons.1 hg with
        | inl hg => exact hg ▸ hf
        | inr hg => exact h.pinOld g (Or.inl hg)
    | inr hg => exact h.pinOld g (Or.inr hg)
  held := h.held
  memo := h.memo

/-- What a read of `ptr` through the cache does. -/
structure Reads (c : Cached) (ptr : BlockPtr) (torn : Fill) (out : Option Frame × Cached) :
    Prop where
  coherent : out.2.Coherent
  disk : out.2.disk = c.disk
  blockCount : out.2.blockCount = c.blockCount
  memo : out.2.memo = c.memo
  pins : c.pins ⊆ out.2.pins
  kept : ∀ f, c.Pinned f → out.2.bytes f = c.bytes f
  got : ∀ f, out.1 = some f → out.2.bytes f = c.disk ptr ∧ f ∈ out.2.pins
  whole : torn = none → out.1.isSome

theorem hit_spec {c : Cached} (h : c.Coherent) {ptr : BlockPtr} {i : ℕ}
    (hmap : (c.home ptr).map ptr = some i) (torn : Fill) :
    ∃ f c', c.hit ptr i = .ok (f, c') ∧ Reads c ptr torn (some f, c') := by
  obtain ⟨hnull, hi⟩ := ((h.sound _).mapped ptr i).1 hmap
  obtain ⟨slot, hslot, hptr⟩ := Shard.slot_of_ptrs hi
  obtain ⟨hsound, hkeeps⟩ := (h.sound _).visit hslot true
  have hframe := Shard.frames_of_slot hslot
  have hold : slot.frame < c.fresh := h.slotOld _ i _ hframe
  refine ⟨slot.frame,
    (c.setShard ptr ((c.home ptr).put i { slot with visited := true })).pin slot.frame, ?_, ?_⟩
  · rw [hit, home, Checked.index_of_getElem? hslot, ok_bind]
  · exact
      { coherent := (h.setShard hsound hkeeps).pin hold
        disk := rfl
        blockCount := rfl
        memo := rfl
        pins := List.subset_cons_self _ _
        kept := fun _ _ => rfl
        got := by
          intro f hf
          cases hf
          exact ⟨h.held _ i ptr _ hi hframe hnull, List.mem_cons_self⟩
        whole := fun _ => rfl }

theorem Coherent.fill {c : Cached} (h : c.Coherent) {k i : ℕ} {f : Frame}
    (hf : (c.shard k).frames[i]? = some f) (hempty : (c.shard k).ptrs[i]? = some nullBlock)
    (hfree : ¬ c.Pinned f) (data : Bytes) : (c.fill f data).Coherent where
  sound := h.sound
  budget := h.budget
  apart := h.apart
  slotOld := h.slotOld
  pinOld := h.pinOld
  held := by
    intro k' i' p g hp hg hnull
    have hne : g ≠ f := by
      intro heq
      obtain ⟨hk, hi⟩ := h.apart k' k i' i f (heq ▸ hg) hf
      subst hk hi
      exact hnull (Option.some.inj (hempty.symm.trans hp)).symm
    change Function.update c.bytes f data g = c.disk p
    rw [Function.update_of_ne hne]
    exact h.held k' i' p g hp hg hnull
  memo := by
    intro p g hmemo
    have hmemo' : c.memo = some (p, g) := hmemo
    have hne : g ≠ f := fun heq => hfree (Or.inr (by rw [hmemo', ← heq]; rfl))
    change Function.update c.bytes f data g = c.disk p
    rw [Function.update_of_ne hne]
    exact h.memo p g hmemo

theorem Coherent.occupy {c : Cached} (h : c.Coherent) {ptr : BlockPtr} {i : ℕ} {slot : Slot}
    (hslot : (c.home ptr).slots[i]? = some slot) (hempty : slot.ptr = nullBlock)
    (hptr : ptr ≠ nullBlock) (hnew : (c.home ptr).map ptr = none)
    (hbytes : c.bytes slot.frame = c.disk ptr) :
    (c.setShard ptr ((c.home ptr).occupy i slot ptr)).Coherent := by
  have hframes : ∀ k, ((c.setShard ptr ((c.home ptr).occupy i slot ptr)).shard k).frames =
      (c.shard k).frames := by
    intro k
    change (Function.update c.shard (ptr % shards) _ k).frames = _
    by_cases hk : k = ptr % shards
    · rw [hk, Function.update_self, Shard.frames_occupy]
      have hsame := Shard.frames_of_slot hslot
      exact set_of_getElem? hsame
    · rw [Function.update_of_ne hk]
  constructor
  · exact sound_setShard h ((h.sound _).occupy hslot hempty hptr hnew rfl)
  · intro k
    have hlen := congrArg List.length (hframes k)
    rw [Shard.frames, Shard.frames, List.length_map, List.length_map] at hlen
    rw [hlen]
    exact h.budget k
  · intro k k' j j' f hj hj'
    rw [hframes] at hj hj'
    exact h.apart k k' j j' f hj hj'
  · intro k j f hj
    rw [hframes] at hj
    exact h.slotOld k j f hj
  · exact h.pinOld
  · intro k j p f hp hf hnull
    rw [hframes] at hf
    change (Function.update c.shard (ptr % shards) _ k).ptrs[j]? = some p at hp
    by_cases hk : k = ptr % shards
    · subst hk
      rw [Function.update_self, Shard.ptrs_occupy] at hp
      cases getElem?_set_some hp with
      | inl hsame =>
          have hf' := Shard.frames_of_slot hslot
          rw [hsame.1] at hf'
          rw [← hsame.2, ← Option.some.inj (hf'.symm.trans hf)]
          exact hbytes
      | inr hother => exact h.held _ j p f hother.2 hf hnull
    · rw [Function.update_of_ne hk] at hp
      exact h.held k j p f hp hf hnull
  · exact h.memo

theorem insertAt_spec {c : Cached} (h : c.Coherent) {ptr : BlockPtr} {i : ℕ} {slot : Slot}
    (hslot : (c.home ptr).slots[i]? = some slot) (hempty : slot.ptr = nullBlock)
    (hfree : ¬ c.Pinned slot.frame) (hptr : ptr ≠ nullBlock)
    (hnew : (c.home ptr).map ptr = none) (torn : Fill) :
    ∃ out, c.insertAt ptr i torn = .ok out ∧ Reads c ptr torn out := by
  have hframe := Shard.frames_of_slot hslot
  have hnull : (c.home ptr).ptrs[i]? = some nullBlock := hempty ▸ Shard.ptrs_of_slot hslot
  have hfill := h.fill hframe hnull hfree (torn.left (c.disk ptr))
  have hkept : ∀ f, c.Pinned f → (c.fill slot.frame (torn.left (c.disk ptr))).bytes f = c.bytes f :=
    fun f hf => Function.update_of_ne (fun heq : f = slot.frame => hfree (heq ▸ hf)) _ _
  have hold : slot.frame < c.fresh := h.slotOld _ i _ hframe
  rw [insertAt, Checked.index_of_getElem? hslot, ok_bind, if_neg hfree]
  simp only []
  cases torn with
  | some junk =>
      refine ⟨_, rfl, ?_⟩
      obtain ⟨hsound, hkeeps⟩ := (h.sound (ptr % shards)).visit hslot slot.visited
      have hsame : { slot with ptr := nullBlock } = { slot with visited := slot.visited } := by
        rw [← hempty]
      exact
        { coherent := by
            change (setShard _ ptr ((c.home ptr).put i { slot with ptr := nullBlock })).Coherent
            rw [hsame]
            exact hfill.setShard hsound hkeeps
          disk := rfl
          blockCount := rfl
          memo := rfl
          pins := fun _ hf => hf
          kept := hkept
          got := fun _ hf => (nomatch hf)
          whole := fun hn => (nomatch hn) }
  | none =>
      refine ⟨_, rfl, ?_⟩
      have hbytes : (c.fill slot.frame (c.disk ptr)).bytes slot.frame = c.disk ptr :=
        Function.update_self _ _ _
      exact
        { coherent := (hfill.occupy hslot hempty hptr hnew hbytes).pin hold
          disk := rfl
          blockCount := rfl
          memo := rfl
          pins := List.subset_cons_self _ _
          kept := hkept
          got := by
            intro f hf
            cases hf
            exact ⟨hbytes, List.mem_cons_self⟩
          whole := fun _ => rfl }

theorem shard_grow_frames {c : Cached} {ptr : BlockPtr} {k i : ℕ} {f : Frame}
    (h : ((c.grow ptr).shard k).frames[i]? = some f) :
    (c.shard k).frames[i]? = some f ∨
      k = ptr % shards ∧ i = (c.home ptr).slots.length ∧ f = c.fresh := by
  change (Function.update c.shard (ptr % shards) ((c.home ptr).push c.fresh) k).frames[i]? = _ at h
  by_cases hk : k = ptr % shards
  · rw [hk, Function.update_self, Shard.frames_push, List.getElem?_append] at h
    split at h
    case isTrue =>
      rw [hk]
      exact Or.inl h
    case isFalse hle =>
      rw [List.getElem?_singleton] at h
      split at h
      case isTrue hzero =>
        rw [Shard.frames, List.length_map] at hle hzero
        refine Or.inr ⟨hk, ?_, (Option.some.inj h).symm⟩
        omega
      case isFalse => cases h
  · rw [Function.update_of_ne hk] at h
    exact Or.inl h

theorem shard_grow_ptrs {c : Cached} {ptr : BlockPtr} {k i : ℕ} {p : BlockPtr}
    (h : ((c.grow ptr).shard k).ptrs[i]? = some p) (hnull : p ≠ nullBlock) :
    (c.shard k).ptrs[i]? = some p := by
  change (Function.update c.shard (ptr % shards) ((c.home ptr).push c.fresh) k).ptrs[i]? = _ at h
  by_cases hk : k = ptr % shards
  · rw [hk, Function.update_self, Shard.ptrs_push, List.getElem?_append] at h
    split at h
    case isTrue =>
      rw [hk]
      exact h
    case isFalse =>
      rw [List.getElem?_singleton] at h
      split at h
      · exact absurd (Option.some.inj h).symm hnull
      · exact nomatch h
  · rw [Function.update_of_ne hk] at h
    exact h

theorem Coherent.grow {c : Cached} (h : c.Coherent) {ptr : BlockPtr}
    (hroom : (c.home ptr).slots.length < c.perShard) : (c.grow ptr).Coherent := by
  constructor
  · exact sound_setShard h ((h.sound _).push c.fresh)
  · intro k
    change (Function.update c.shard (ptr % shards) ((c.home ptr).push c.fresh) k).slots.length ≤ _
    by_cases hk : k = ptr % shards
    · rw [hk, Function.update_self, Shard.push, List.length_append]
      exact hroom
    · rw [Function.update_of_ne hk]
      exact h.budget k
  · intro k k' i i' f hf hf'
    cases shard_grow_frames hf with
    | inl hold =>
        cases shard_grow_frames hf' with
        | inl hold' => exact h.apart k k' i i' f hold hold'
        | inr hnew' => exact absurd (h.slotOld k i f hold) (hnew'.2.2 ▸ lt_irrefl _)
    | inr hnew =>
        cases shard_grow_frames hf' with
        | inl hold' => exact absurd (h.slotOld k' i' f hold') (hnew.2.2 ▸ lt_irrefl _)
        | inr hnew' => exact ⟨hnew.1.trans hnew'.1.symm, hnew.2.1.trans hnew'.2.1.symm⟩
  · intro k i f hf
    cases shard_grow_frames hf with
    | inl hold => exact (h.slotOld k i f hold).trans (Nat.lt_succ_self _)
    | inr hnew => exact hnew.2.2 ▸ Nat.lt_succ_self _
  · exact fun f hf => (h.pinOld f hf).trans (Nat.lt_succ_self _)
  · intro k i p f hp hf hnull
    have hp' := shard_grow_ptrs hp hnull
    cases shard_grow_frames hf with
    | inl hold => exact h.held k i p f hp' hold hnull
    | inr hnew =>
        have hlt := (List.getElem?_eq_some_iff.1 hp').1
        rw [hnew.1, Shard.ptrs, List.length_map, hnew.2.1] at hlt
        exact absurd hlt (lt_irrefl _)
  · exact h.memo

theorem transient_spec {c : Cached} (h : c.Coherent) (ptr : BlockPtr) (torn : Fill) :
    Reads c ptr torn (c.transient ptr torn) := by
  have hother : ∀ f, f < c.fresh →
      Function.update c.bytes c.fresh (torn.left (c.disk ptr)) f = c.bytes f :=
    fun f hf => Function.update_of_ne hf.ne _ _
  have hcoherent : ({ c.fill c.fresh (torn.left (c.disk ptr)) with
      fresh := c.fresh + 1 } : Cached).Coherent :=
    { sound := h.sound
      budget := h.budget
      apart := h.apart
      slotOld := fun k i f hf => (h.slotOld k i f hf).trans (Nat.lt_succ_self _)
      pinOld := fun f hf => (h.pinOld f hf).trans (Nat.lt_succ_self _)
      held := fun k i p f hp hf hnull =>
        (hother f (h.slotOld k i f hf)).trans (h.held k i p f hp hf hnull)
      memo := fun p f hmemo =>
        (hother f (h.pinOld f (Or.inr (by
          change c.memo = some (p, f) at hmemo
          rw [hmemo]
          rfl)))).trans (h.memo p f hmemo) }
  cases torn with
  | some junk =>
      exact
        { coherent := hcoherent
          disk := rfl
          blockCount := rfl
          memo := rfl
          pins := fun _ hf => hf
          kept := fun f hf => hother f (h.pinOld f hf)
          got := fun _ hf => (nomatch hf)
          whole := fun hn => (nomatch hn) }
  | none =>
      exact
        { coherent := hcoherent.pin (Nat.lt_succ_self _)
          disk := rfl
          blockCount := rfl
          memo := rfl
          pins := List.subset_cons_self _ _
          kept := fun f hf => hother f (h.pinOld f hf)
          got := by
            intro f hf
            cases hf
            exact ⟨Function.update_self _ _ _, List.mem_cons_self⟩
          whole := fun _ => rfl }

/-- A read from a state that differs only in what a read may change. -/
theorem Reads.after {c c' : Cached} {ptr : BlockPtr} {torn : Fill} {out : Option Frame × Cached}
    (hdisk : c'.disk = c.disk) (hcount : c'.blockCount = c.blockCount) (hmemo : c'.memo = c.memo)
    (hpins : c'.pins = c.pins) (hbytes : c'.bytes = c.bytes) (h : Reads c' ptr torn out) :
    Reads c ptr torn out where
  coherent := h.coherent
  disk := h.disk.trans hdisk
  blockCount := h.blockCount.trans hcount
  memo := h.memo.trans hmemo
  pins := hpins ▸ h.pins
  kept := by
    intro f hf
    have hf' : c'.Pinned f := by
      rw [Pinned, hpins, hmemo]
      exact hf
    rw [h.kept f hf', hbytes]
  got := by
    intro f hf
    rw [← hdisk]
    exact h.got f hf
  whole := h.whole

theorem insert_spec {c : Cached} (h : c.Coherent) {ptr : BlockPtr} (hptr : ptr ≠ nullBlock)
    (torn : Fill) : ∃ out, c.insert ptr torn = .ok out ∧ Reads c ptr torn out := by
  rw [insert]
  cases hmap : (c.home ptr).map ptr with
  | some i =>
      obtain ⟨f, c', hhit, hreads⟩ := hit_spec h hmap torn
      refine ⟨(some f, c'), ?_, hreads⟩
      simp only [hhit, ok_bind]
  | none =>
      simp only []
      split
      case isTrue hroom =>
        have hgrown : (c.grow ptr).home ptr = (c.home ptr).push c.fresh := setShard_self c ptr _
        have hslot : ((c.grow ptr).home ptr).slots[(c.home ptr).slots.length]? =
            some { ptr := nullBlock, visited := false, frame := c.fresh } := by
          rw [hgrown, Shard.push, List.getElem?_append_right le_rfl, Nat.sub_self]
          rfl
        have hfree : ¬ (c.grow ptr).Pinned c.fresh := fun hf => lt_irrefl _ (h.pinOld _ hf)
        have hnew : ((c.grow ptr).home ptr).map ptr = none := by
          rw [hgrown]
          exact hmap
        obtain ⟨out, hrun, hreads⟩ := insertAt_spec (h.grow hroom) hslot rfl hfree hptr hnew torn
        exact ⟨out, hrun, @Reads.after c (c.grow ptr) ptr torn out rfl rfl rfl rfl rfl hreads⟩
      case isFalse =>
        obtain ⟨taken, s, hrun, hs, hkeeps, htaken⟩ :=
          Shard.evict_spec c.Pinned (h.sound (ptr % shards))
        have hset : (c.setShard ptr s).Coherent := h.setShard hs hkeeps
        have hmapped : s.map ptr = none := by
          cases hsome : s.map ptr with
          | none => rfl
          | some i =>
              have hi := ((hs.mapped ptr i).1 hsome).2
              have hold := ((h.sound _).mapped ptr i).2 ⟨hptr, hkeeps.ptrs i ptr hi hptr⟩
              cases hmap.symm.trans hold
        have hevict : (c.home ptr).evict c.Pinned = .ok (taken, s) := hrun
        rw [hevict, ok_bind]
        cases taken with
        | none =>
            refine ⟨(c.setShard ptr s).transient ptr torn, rfl, ?_⟩
            exact @Reads.after c (c.setShard ptr s) ptr torn _ rfl rfl rfl rfl rfl
              (transient_spec hset ptr torn)
        | some i =>
            obtain ⟨slot, hslot, hempty, hfree⟩ := htaken i rfl
            have hself : (c.setShard ptr s).home ptr = s := setShard_self c ptr s
            obtain ⟨out, hins, hreads⟩ := insertAt_spec hset (hself.symm ▸ hslot) hempty hfree hptr
              (hself.symm ▸ hmapped) torn
            exact ⟨out, hins,
              @Reads.after c (c.setShard ptr s) ptr torn out rfl rfl rfl rfl rfl hreads⟩

theorem fetch_spec {c : Cached} (h : c.Coherent) {ptr : BlockPtr} (hptr : ptr ≠ nullBlock)
    (torn : Fill) : ∃ out, c.fetch ptr torn = .ok out ∧ Reads c ptr torn out := by
  rw [fetch]
  cases hmap : (c.home ptr).map ptr with
  | some i =>
      obtain ⟨f, c', hhit, hreads⟩ := hit_spec h hmap torn
      refine ⟨(some f, c'), ?_, hreads⟩
      simp only [hhit, ok_bind]
  | none => exact insert_spec h hptr torn

end Cached

theorem checkPtr_cases (blockCount : ℕ) (ptr : BlockPtr) :
    (checkPtr blockCount ptr = .ok () ∧ ptr ≠ nullBlock) ∨
      ∃ e, checkPtr blockCount ptr = .error e := by
  rw [checkPtr]
  split
  case isTrue => exact Or.inr ⟨_, rfl⟩
  case isFalse hout => exact Or.inl ⟨rfl, fun hnull => hout (Or.inl hnull)⟩

namespace Cached

theorem Coherent.remember {c : Cached} (h : c.Coherent) {ptr : BlockPtr} {f : Frame}
    (hf : f ∈ c.pins) (hbytes : c.bytes f = c.disk ptr) : (c.remember ptr f).Coherent where
  sound := h.sound
  budget := h.budget
  apart := h.apart
  slotOld := h.slotOld
  pinOld := by
    intro g hg
    cases hg with
    | inl hg => exact h.pinOld g (Or.inl hg)
    | inr hg =>
        cases Option.mem_some_iff.1 hg
        exact h.pinOld _ (Or.inl hf)
  held := h.held
  memo := by
    intro p g hmemo
    cases hmemo
    exact hbytes

theorem Coherent.fewer {c c' : Cached} (h : c.Coherent) (hshard : c'.shard = c.shard)
    (hper : c'.perShard = c.perShard) (hfresh : c'.fresh = c.fresh) (hbytes : c'.bytes = c.bytes)
    (hdisk : c'.disk = c.disk) (hmemo : c'.memo = c.memo ∨ c'.memo = none)
    (hpins : c'.pins ⊆ c.pins) : c'.Coherent := by
  constructor
  · rw [hshard]
    exact h.sound
  · rw [hshard, hper]
    exact h.budget
  · rw [hshard]
    exact h.apart
  · rw [hshard, hfresh]
    exact h.slotOld
  · intro f hf
    rw [hfresh]
    cases hf with
    | inl hf => exact h.pinOld f (Or.inl (hpins hf))
    | inr hf =>
        cases hmemo with
        | inl hsame => exact h.pinOld f (Or.inr (hsame ▸ hf))
        | inr hnone =>
            rw [hnone] at hf
            exact nomatch hf
  · rw [hshard, hbytes, hdisk]
    exact h.held
  · intro p f hf
    rw [hbytes, hdisk]
    cases hmemo with
    | inl hsame => exact h.memo p f (hsame ▸ hf)
    | inr hnone => exact nomatch hnone.symm.trans hf

end Cached

namespace CacheOp

open Cached

def reads : CacheOp → Option (BlockPtr × Fill)
  | .pin ptr torn => some (ptr, torn)
  | .peer ptr torn => some (ptr, torn)
  | _ => none

/-- What an operation does to the file: only a write of one of its blocks does anything
to a block. -/
def record (file : (BlockPtr → Bytes) × ℕ) : CacheOp → (BlockPtr → Bytes) × ℕ
  | .write ptr data torn =>
      if (checkPtr file.2 ptr).isOk then (Function.update file.1 ptr (torn.left data), file.2)
      else file
  | .allocate => (file.1, file.2 + 1)
  | _ => file

/-- What one operation does. -/
structure Does (c : Cached) (op : CacheOp) (out : Option Frame × Cached) : Prop where
  coherent : out.2.Coherent
  file : (out.2.disk, out.2.blockCount) = op.record (c.disk, c.blockCount)
  kept : ∀ f, c.Pinned f → out.2.bytes f = c.bytes f
  got : ∀ ptr torn f, op.reads = some (ptr, torn) → out.1 = some f →
    out.2.bytes f = c.disk ptr ∧ out.2.Pinned f
  whole : ∀ ptr, op.reads = some (ptr, none) → checkPtr c.blockCount ptr = .ok () → out.1.isSome

theorem does_refused {c : Cached} (h : c.Coherent) {op : CacheOp}
    (hfile : op.record (c.disk, c.blockCount) = (c.disk, c.blockCount))
    (hrefused : ∀ ptr torn, op.reads = some (ptr, torn) → checkPtr c.blockCount ptr ≠ .ok ()) :
    Does c op (none, c) where
  coherent := h
  file := hfile.symm
  kept := fun _ _ => rfl
  got := fun _ _ _ _ hf => (nomatch hf)
  whole := fun ptr hreads hok => absurd hok (hrefused ptr none hreads)

theorem does_fetch {c : Cached} {ptr : BlockPtr} {torn : Fill} {out : Option Frame × Cached}
    (h : Reads c ptr torn out) : Does c (.peer ptr torn) out where
  coherent := h.coherent
  file := Prod.ext h.disk h.blockCount
  kept := h.kept
  got := by
    intro p t f hreads hf
    cases hreads
    exact ⟨(h.got f hf).1, Or.inl (h.got f hf).2⟩
  whole := by
    intro p hreads _
    cases hreads
    exact h.whole rfl

theorem does_remember {c : Cached} {ptr : BlockPtr} {torn : Fill} {out : Option Frame × Cached}
    (h : Reads c ptr torn out) :
    Does c (.pin ptr torn) (out.1, out.1.elim out.2 (out.2.remember ptr)) := by
  obtain ⟨got, c'⟩ := out
  cases got with
  | none =>
      exact
        { coherent := h.coherent
          file := Prod.ext h.disk h.blockCount
          kept := h.kept
          got := fun _ _ _ _ hf => (nomatch hf)
          whole := by
            intro p hreads _
            cases hreads
            exact h.whole rfl }
  | some f =>
      obtain ⟨hbytes, hmem⟩ := h.got f rfl
      exact
        { coherent := h.coherent.remember hmem (hbytes.trans (congrFun h.disk.symm ptr))
          file := Prod.ext h.disk h.blockCount
          kept := h.kept
          got := by
            intro p t g hreads hg
            cases hreads
            cases hg
            exact ⟨hbytes, Or.inl hmem⟩
          whole := fun _ _ _ => rfl }

theorem step_pin {c : Cached} (h : c.Coherent) (ptr : BlockPtr) (torn : Fill) :
    ∃ out, (CacheOp.pin ptr torn).step c = .ok out ∧ Does c (.pin ptr torn) out := by
  cases checkPtr_cases c.blockCount ptr with
  | inr hbad =>
      obtain ⟨e, he⟩ := hbad
      refine ⟨(none, c), ?_, does_refused h rfl fun p t hreads hok => ?_⟩
      · rw [step, run, pinBlock, he]
        rfl
      · cases hreads
        cases he.symm.trans hok
  | inl hgood =>
      obtain ⟨hok, hnull⟩ := hgood
      obtain ⟨out, hfetch, hreads⟩ := fetch_spec h hnull torn
      have hmiss : ∃ out, (do
          let got ← c.fetch ptr torn
          .ok (got.1, got.1.elim got.2 (got.2.remember ptr)) : Checked ZuError _) = .ok out ∧
            Does c (.pin ptr torn) out :=
        ⟨_, by rw [hfetch]; rfl, does_remember hreads⟩
      cases hmemo : c.memo with
      | none =>
          obtain ⟨out, hrun, hdoes⟩ := hmiss
          refine ⟨out, ?_, hdoes⟩
          rw [step, run, pinBlock, hok]
          simp only [Checked.ofExcept, ok_bind, hmemo]
          rw [hrun]
      | some kept =>
          by_cases hsame : kept.1 = ptr
          · have hbytes := h.memo kept.1 kept.2 hmemo
            have hpinned : c.Pinned kept.2 := Or.inr (by rw [hmemo]; rfl)
            refine ⟨(some kept.2, c.pin kept.2), ?_, ?_⟩
            · rw [step, run, pinBlock, hok]
              simp only [Checked.ofExcept, ok_bind, hmemo, if_pos hsame]
            · exact
                { coherent := h.pin (h.pinOld _ hpinned)
                  file := rfl
                  kept := fun _ _ => rfl
                  got := by
                    intro p t f hreads hf
                    cases hreads
                    cases hf
                    exact ⟨hsame ▸ hbytes, Or.inl List.mem_cons_self⟩
                  whole := fun _ _ _ => rfl }
          · obtain ⟨out, hrun, hdoes⟩ := hmiss
            refine ⟨out, ?_, hdoes⟩
            rw [step, run, pinBlock, hok]
            simp only [Checked.ofExcept, ok_bind, hmemo, if_neg hsame]
            rw [hrun]

theorem step_peer {c : Cached} (h : c.Coherent) (ptr : BlockPtr) (torn : Fill) :
    ∃ out, (CacheOp.peer ptr torn).step c = .ok out ∧ Does c (.peer ptr torn) out := by
  cases checkPtr_cases c.blockCount ptr with
  | inr hbad =>
      obtain ⟨e, he⟩ := hbad
      refine ⟨(none, c), ?_, does_refused h rfl fun p t hreads hok => ?_⟩
      · rw [step, run, he]
        rfl
      · cases hreads
        exact nomatch he.symm.trans hok
  | inl hgood =>
      obtain ⟨out, hfetch, hreads⟩ := fetch_spec h hgood.2 torn
      refine ⟨out, ?_, does_fetch hreads⟩
      rw [step, run, hgood.1]
      simp only [Checked.ofExcept, ok_bind, hfetch]

theorem step_write {c : Cached} (h : c.Coherent) (ptr : BlockPtr) (data : Bytes) (torn : Fill) :
    ∃ out, (CacheOp.write ptr data torn).step c = .ok out ∧ Does c (.write ptr data torn) out := by
  cases checkPtr_cases c.blockCount ptr with
  | inr hbad =>
      obtain ⟨e, he⟩ := hbad
      refine ⟨(none, c), ?_, does_refused h ?_ fun p t hreads => (nomatch hreads)⟩
      · rw [step, run, writeBlock, he]
        rfl
      · rw [record, he]
        rfl
  | inl hgood =>
      obtain ⟨hok, hnull⟩ := hgood
      obtain ⟨s, hremove, hs, hkeeps, hgone⟩ := Shard.remove_spec (h.sound (ptr % shards)) ptr
      have hremove' : (c.home ptr).remove ptr = .ok s := hremove
      have hforgot : ({ c with memo := none } : Cached).Coherent :=
        h.fewer rfl rfl rfl rfl rfl (Or.inr rfl) (fun _ hf => hf)
      have hset : (({ c with memo := none } : Cached).setShard ptr s).Coherent :=
        hforgot.setShard hs hkeeps
      refine ⟨(none, { ({ c with memo := none } : Cached).setShard ptr s with
        disk := Function.update c.disk ptr (torn.left data) }), ?_, ?_⟩
      · rw [step, run, writeBlock, hok]
        simp only [Checked.ofExcept, ok_bind, hremove']
      · refine
          { coherent :=
              { sound := hset.sound
                budget := hset.budget
                apart := hset.apart
                slotOld := hset.slotOld
                pinOld := hset.pinOld
                held := ?_
                memo := fun _ _ hmemo => (nomatch hmemo) }
            file := ?_
            kept := fun _ _ => rfl
            got := fun _ _ _ hreads => (nomatch hreads)
            whole := fun _ hreads => (nomatch hreads) }
        · intro k i p f hp hf hpnull
          have hne : p ≠ ptr := by
            intro heq
            by_cases hk : k = ptr % shards
            · change (Function.update c.shard (ptr % shards) s k).ptrs[i]? = some p at hp
              rw [hk, Function.update_self, heq] at hp
              exact hgone i hnull hp
            · have hhome := (hset.sound k).home i p hp hpnull
              exact hk (heq ▸ hhome.symm)
          have hdisk : Function.update c.disk ptr (torn.left data) p = c.disk p :=
            Function.update_of_ne hne _ _
          exact (hset.held k i p f hp hf hpnull).trans hdisk.symm
        · rw [record, hok]
          rfl

theorem step_spec {c : Cached} (h : c.Coherent) (op : CacheOp) :
    ∃ out, op.step c = .ok out ∧ Does c op out := by
  cases op with
  | pin ptr torn => exact step_pin h ptr torn
  | peer ptr torn => exact step_peer h ptr torn
  | write ptr data torn => exact step_write h ptr data torn
  | allocate =>
      refine ⟨_, rfl, ?_⟩
      exact
        { coherent := h.fewer rfl rfl rfl rfl rfl (Or.inl rfl) (fun _ hf => hf)
          file := rfl
          kept := fun _ _ => rfl
          got := fun _ _ _ hreads => (nomatch hreads)
          whole := fun _ hreads => (nomatch hreads) }
  | clone f =>
      refine ⟨_, rfl, ?_⟩
      by_cases hf : f ∈ c.pins
      · rw [if_pos hf]
        exact
          { coherent := h.pin (h.pinOld f (Or.inl hf))
            file := rfl
            kept := fun _ _ => rfl
            got := fun _ _ _ hreads => (nomatch hreads)
            whole := fun _ hreads => (nomatch hreads) }
      · rw [if_neg hf]
        exact does_refused h rfl fun _ _ hreads => (nomatch hreads)
  | unpin f =>
      refine ⟨_, rfl, ?_⟩
      exact
        { coherent := h.fewer rfl rfl rfl rfl rfl (Or.inl rfl) List.erase_subset
          file := rfl
          kept := fun _ _ => rfl
          got := fun _ _ _ hreads => (nomatch hreads)
          whole := fun _ hreads => (nomatch hreads) }

theorem runAll_spec {c : Cached} (h : c.Coherent) (ops : List CacheOp) :
    ∃ c', runAll c ops = .ok c' ∧ c'.Coherent ∧
      (c'.disk, c'.blockCount) = ops.foldl record (c.disk, c.blockCount) := by
  induction ops generalizing c with
  | nil => exact ⟨c, rfl, h, rfl⟩
  | cons op ops ih =>
      obtain ⟨out, hstep, hdoes⟩ := step_spec h op
      obtain ⟨c', hrun, hcoherent, hfile⟩ := ih hdoes.coherent
      refine ⟨c', ?_, hcoherent, ?_⟩
      · rw [runAll, hstep]
        exact hrun
      · rw [hfile, List.foldl_cons, hdoes.file]

/-- Whatever is done to a cached file, nothing panics: the maps and the slots stay in
bijection, within the budget, a read hands out a frame with what was last written to its
block, and nothing that is done changes a frame under a pin. The sweep of an eviction
ends; what it takes is not pinned, and it takes nothing only where everything is. -/
theorem cache_coherent (budget : ℕ) (disk : BlockPtr → Bytes) (blockCount : ℕ)
    (ops : List CacheOp) :
    ∃ c, runAll (Cached.new budget disk blockCount) ops = .ok c ∧ c.Coherent ∧
      (c.disk, c.blockCount) = ops.foldl record (disk, blockCount) ∧
      (∀ op : CacheOp, ∃ out, op.step c = .ok out ∧ (∀ f, c.Pinned f → out.2.bytes f = c.bytes f) ∧
        (∀ ptr torn f, op.reads = some (ptr, torn) → out.1 = some f →
          out.2.bytes f = (ops.foldl record (disk, blockCount)).1 ptr) ∧
        ∀ ptr, op.reads = some (ptr, none) → checkPtr c.blockCount ptr = .ok () →
          out.1.isSome) ∧
      ∀ k, ∃ taken s, (c.shard k).evict c.Pinned = .ok (taken, s) ∧
        (∀ i, taken = some i → ∃ slot, s.slots[i]? = some slot ∧ ¬ c.Pinned slot.frame) ∧
        (taken = none → ∀ slot ∈ (c.shard k).slots, c.Pinned slot.frame) := by
  obtain ⟨c, hrun, hcoherent, hfile⟩ := runAll_spec (coherent_new budget disk blockCount) ops
  refine ⟨c, hrun, hcoherent, hfile, fun op => ?_, fun k => ?_⟩
  · obtain ⟨out, hstep, hdoes⟩ := step_spec hcoherent op
    refine ⟨out, hstep, hdoes.kept, fun ptr torn f hreads hf => ?_, hdoes.whole⟩
    have hdisk : c.disk = (ops.foldl record (disk, blockCount)).1 := congrArg Prod.fst hfile
    rw [← hdisk]
    exact (hdoes.got ptr torn f hreads hf).1
  · obtain ⟨taken, s, hevict, -, -, htaken⟩ := Shard.evict_spec c.Pinned (hcoherent.sound k)
    refine ⟨taken, s, hevict, fun i hi => ?_, fun hnone => ?_⟩
    · obtain ⟨slot, hslot, -, hfree⟩ := htaken i hi
      exact ⟨slot, hslot, hfree⟩
    · rw [hnone] at hevict
      exact Shard.evict_none (hcoherent.sound k) hevict

end CacheOp

end Zu.File
