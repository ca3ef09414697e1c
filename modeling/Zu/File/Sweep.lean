import Zu.File.BlockCache

/-!
# A shard and its hand

In a shard the map and the slots say the same of which block is where. The hand goes
round the slots, takes no frame that is pinned, and gives up only where all of them are.
-/

namespace Zu.File

open Lib

theorem set_of_getElem? {α : Type} {l : List α} {i : ℕ} {a : α} (h : l[i]? = some a) :
    l.set i a = l := by
  apply List.ext_getElem?
  intro j
  rw [List.getElem?_set]
  split
  case isTrue hij =>
    have hlt : i < l.length := (List.getElem?_eq_some_iff.1 h).1
    rw [if_pos hlt, ← hij, h]
  case isFalse => rfl

theorem getElem?_set_some {α : Type} {l : List α} {i j : ℕ} {a b : α}
    (h : (l.set i a)[j]? = some b) : (i = j ∧ a = b) ∨ (i ≠ j ∧ l[j]? = some b) := by
  rw [List.getElem?_set] at h
  split at h
  case isTrue hij =>
    split at h
    case isTrue => exact Or.inl ⟨hij, Option.some.inj h⟩
    case isFalse => exact nomatch h
  case isFalse hij => exact Or.inr ⟨hij, h⟩

theorem getElem?_set_self_of {α : Type} {l : List α} {i : ℕ} {a b : α} (h : l[i]? = some b) :
    (l.set i a)[i]? = some a := by
  rw [List.getElem?_set_self (List.getElem?_eq_some_iff.1 h).1]

namespace Shard

def ptrs (s : Shard) : List BlockPtr := s.slots.map Slot.ptr

def frames (s : Shard) : List Frame := s.slots.map Slot.frame

@[simp] theorem ptrs_advance (s : Shard) : s.advance.ptrs = s.ptrs := rfl

@[simp] theorem frames_advance (s : Shard) : s.advance.frames = s.frames := rfl

@[simp] theorem ptrs_put (s : Shard) (i : ℕ) (slot : Slot) :
    (s.put i slot).ptrs = s.ptrs.set i slot.ptr := List.map_set

@[simp] theorem frames_put (s : Shard) (i : ℕ) (slot : Slot) :
    (s.put i slot).frames = s.frames.set i slot.frame := List.map_set

@[simp] theorem ptrs_vacate (s : Shard) (i : ℕ) (slot : Slot) :
    (s.vacate i slot).ptrs = s.ptrs.set i nullBlock := List.map_set

@[simp] theorem frames_vacate (s : Shard) (i : ℕ) (slot : Slot) :
    (s.vacate i slot).frames = s.frames.set i slot.frame := List.map_set

@[simp] theorem ptrs_occupy (s : Shard) (i : ℕ) (slot : Slot) (ptr : BlockPtr) :
    (s.occupy i slot ptr).ptrs = s.ptrs.set i ptr := List.map_set

@[simp] theorem frames_occupy (s : Shard) (i : ℕ) (slot : Slot) (ptr : BlockPtr) :
    (s.occupy i slot ptr).frames = s.frames.set i slot.frame := List.map_set

@[simp] theorem ptrs_push (s : Shard) (f : Frame) : (s.push f).ptrs = s.ptrs ++ [nullBlock] :=
  List.map_append

@[simp] theorem frames_push (s : Shard) (f : Frame) : (s.push f).frames = s.frames ++ [f] :=
  List.map_append

theorem ptrs_of_slot {s : Shard} {i : ℕ} {slot : Slot} (h : s.slots[i]? = some slot) :
    s.ptrs[i]? = some slot.ptr := by
  rw [ptrs, List.getElem?_map, h]
  rfl

theorem frames_of_slot {s : Shard} {i : ℕ} {slot : Slot} (h : s.slots[i]? = some slot) :
    s.frames[i]? = some slot.frame := by
  rw [frames, List.getElem?_map, h]
  rfl

theorem slot_of_ptrs {s : Shard} {i : ℕ} {p : BlockPtr} (h : s.ptrs[i]? = some p) :
    ∃ slot, s.slots[i]? = some slot ∧ slot.ptr = p := by
  rw [ptrs, List.getElem?_map, Option.map_eq_some_iff] at h
  exact h

/-- The map and the slots are in bijection, the blocks are at home in the shard, and the
hand is on a slot. -/
structure Sound (k : ℕ) (s : Shard) : Prop where
  mapped : ∀ (p : BlockPtr) (i : ℕ), s.map p = some i ↔ p ≠ nullBlock ∧ s.ptrs[i]? = some p
  home : ∀ (i : ℕ) (p : BlockPtr), s.ptrs[i]? = some p → p ≠ nullBlock → p % shards = k
  hand : s.hand = 0 ∨ s.hand < s.slots.length

/-- Slots that were only visited, unvisited or emptied. -/
structure Keeps (s s' : Shard) : Prop where
  frames : s'.frames = s.frames
  ptrs : ∀ (i : ℕ) (p : BlockPtr), s'.ptrs[i]? = some p → p ≠ nullBlock → s.ptrs[i]? = some p

theorem Keeps.refl (s : Shard) : s.Keeps s := ⟨rfl, fun _ _ h _ => h⟩

theorem Keeps.trans {s t u : Shard} (h : s.Keeps t) (h' : t.Keeps u) : s.Keeps u where
  frames := h'.frames.trans h.frames
  ptrs := fun i p hp hnull => h.ptrs i p (h'.ptrs i p hp hnull) hnull

theorem Keeps.length {s s' : Shard} (h : s.Keeps s') : s'.slots.length = s.slots.length := by
  have hlen := congrArg List.length h.frames
  rwa [Shard.frames, Shard.frames, List.length_map, List.length_map] at hlen

theorem Sound.advance {k : ℕ} {s : Shard} (h : s.Sound k) (hne : s.slots ≠ []) :
    s.advance.Sound k where
  mapped := h.mapped
  home := h.home
  hand := Or.inr (Nat.mod_lt _ (List.length_pos_of_ne_nil hne))

theorem Sound.visit {k : ℕ} {s : Shard} (h : s.Sound k) {i : ℕ} {slot : Slot}
    (hi : s.slots[i]? = some slot) (visited : Bool) :
    (s.put i { slot with visited }).Sound k ∧ s.Keeps (s.put i { slot with visited }) := by
  have hptrs : (s.put i { slot with visited }).ptrs = s.ptrs := by
    rw [ptrs_put]
    have hsame := ptrs_of_slot hi
    exact set_of_getElem? hsame
  constructor
  · constructor
    · intro p j
      rw [hptrs]
      exact h.mapped p j
    · intro j p
      rw [hptrs]
      exact h.home j p
    · rw [Shard.put, List.length_set]
      exact h.hand
  · constructor
    · rw [frames_put]
      have hsame := frames_of_slot hi
      exact set_of_getElem? hsame
    · intro j p hj _
      rwa [hptrs] at hj

/-- Two slots do not hold one block. -/
theorem Sound.unique {k : ℕ} {s : Shard} (h : s.Sound k) {i j : ℕ} {p : BlockPtr}
    (hnull : p ≠ nullBlock) (hi : s.ptrs[i]? = some p) (hj : s.ptrs[j]? = some p) : i = j :=
  Option.some.inj (((h.mapped p i).2 ⟨hnull, hi⟩).symm.trans ((h.mapped p j).2 ⟨hnull, hj⟩))

theorem Sound.vacate {k : ℕ} {s : Shard} (h : s.Sound k) {i : ℕ} {slot : Slot}
    (hi : s.slots[i]? = some slot) :
    (s.vacate i slot).Sound k ∧ s.Keeps (s.vacate i slot) := by
  have hptr := ptrs_of_slot hi
  have hkeeps : s.Keeps (s.vacate i slot) := by
    constructor
    · rw [frames_vacate]
      exact set_of_getElem? (frames_of_slot hi)
    · intro j p hj hnull
      rw [ptrs_vacate] at hj
      cases getElem?_set_some hj with
      | inl hsame => exact absurd hsame.2.symm hnull
      | inr hother => exact hother.2
  refine ⟨⟨fun p j => ?_, fun j p hj hnull => h.home j p (hkeeps.ptrs j p hj hnull) hnull, ?_⟩,
    hkeeps⟩
  · have hmap : (s.vacate i slot).map p = some j ↔ p ≠ slot.ptr ∧ s.map p = some j := by
      rw [Shard.vacate]
      simp only []
      split
      case isTrue hnull =>
        refine ⟨fun hp => ⟨fun heq => ?_, hp⟩, And.right⟩
        exact ((h.mapped p j).1 hp).1 (heq.trans hnull)
      case isFalse hnull =>
        by_cases hp : p = slot.ptr
        · rw [hp, Function.update_self]
          exact ⟨fun hn => (nomatch hn), fun hn => absurd rfl hn.1⟩
        · rw [Function.update_of_ne hp]
          exact ⟨fun hm => ⟨hp, hm⟩, And.right⟩
    rw [hmap, h.mapped]
    constructor
    · rintro ⟨hne, hnull, hj⟩
      refine ⟨hnull, ?_⟩
      have hij : i ≠ j := fun heq => hne (Option.some.inj (hj.symm.trans (heq ▸ hptr)))
      rw [ptrs_vacate, List.getElem?_set_ne hij]
      exact hj
    · rintro ⟨hnull, hj⟩
      have hold := hkeeps.ptrs j p hj hnull
      refine ⟨fun heq => ?_, hnull, hold⟩
      have hij : i = j := h.unique hnull (heq ▸ hptr) hold
      rw [ptrs_vacate, ← hij, getElem?_set_self_of hptr] at hj
      exact hnull (Option.some.inj hj).symm
  · have hlen : (s.vacate i slot).slots.length = s.slots.length := hkeeps.length
    rw [hlen]
    exact h.hand

theorem Sound.occupy {k : ℕ} {s : Shard} (h : s.Sound k) {i : ℕ} {slot : Slot}
    (hi : s.slots[i]? = some slot) (hempty : slot.ptr = nullBlock) {ptr : BlockPtr}
    (hptr : ptr ≠ nullBlock) (hnew : s.map ptr = none) (hhome : ptr % shards = k) :
    (s.occupy i slot ptr).Sound k := by
  have hnull := ptrs_of_slot hi
  rw [hempty] at hnull
  refine ⟨fun p j => ?_, fun j p hj hp => ?_, ?_⟩
  · change Function.update s.map ptr (some i) p = some j ↔ _
    rw [ptrs_occupy]
    by_cases hp : p = ptr
    · rw [hp, Function.update_self]
      constructor
      · intro hij
        rw [← Option.some.inj hij]
        exact ⟨hptr, getElem?_set_self_of hnull⟩
      · rintro ⟨-, hj⟩
        cases getElem?_set_some hj with
        | inl hsame => rw [hsame.1]
        | inr hother =>
            have hmapped := (h.mapped ptr j).2 ⟨hptr, hother.2⟩
            exact nomatch hnew.symm.trans hmapped
    · rw [Function.update_of_ne hp, h.mapped]
      constructor
      · rintro ⟨hpn, hj⟩
        have hij : i ≠ j := fun heq => hpn (Option.some.inj (hj.symm.trans (heq ▸ hnull)))
        exact ⟨hpn, by rwa [List.getElem?_set_ne hij]⟩
      · rintro ⟨hpn, hj⟩
        cases getElem?_set_some hj with
        | inl hsame => exact absurd hsame.2.symm hp
        | inr hother => exact ⟨hpn, hother.2⟩
  · rw [ptrs_occupy] at hj
    cases getElem?_set_some hj with
    | inl hsame => exact hsame.2 ▸ hhome
    | inr hother => exact h.home j p hother.2 hp
  · rw [Shard.occupy, List.length_set]
    exact h.hand

theorem Sound.push {k : ℕ} {s : Shard} (h : s.Sound k) (f : Frame) : (s.push f).Sound k := by
  have hptrs : ∀ (i : ℕ) (p : BlockPtr), p ≠ nullBlock → ((s.push f).ptrs[i]? = some p ↔ s.ptrs[i]? = some p) := by
    intro i p hp
    rw [ptrs_push, List.getElem?_append]
    split
    case isTrue => exact Iff.rfl
    case isFalse hle =>
      have hnone : s.ptrs[i]? = none := List.getElem?_eq_none (not_lt.1 hle)
      rw [hnone]
      refine ⟨fun hlast => absurd ?_ hp, fun hn => nomatch hn⟩
      rw [List.getElem?_singleton] at hlast
      split at hlast
      · exact (Option.some.inj hlast).symm
      · exact nomatch hlast
  refine ⟨fun p i => ?_, fun i p hi hp => h.home i p ((hptrs i p hp).1 hi) hp, ?_⟩
  · change s.map p = some i ↔ _
    rw [h.mapped]
    exact and_congr_right fun hp => (hptrs i p hp).symm
  · rw [Shard.push, List.length_append]
    exact h.hand.imp_right fun hlt => hlt.trans (Nat.lt_succ_self _)

/-! ### The hand -/

/-- The hand goes on without leaving the slots, changes only what may be changed, and
takes an empty slot whose frame is not pinned. -/
theorem sweep_spec (pinned : Frame → Prop) [DecidablePred pinned] {k : ℕ} {s : Shard}
    (h : s.Sound k) (hne : s.slots ≠ []) (n : ℕ) :
    ∃ taken s', s.sweep pinned n = .ok (taken, s') ∧ s'.Sound k ∧ s.Keeps s' ∧
      ∀ i, taken = some i → ∃ slot, s'.slots[i]? = some slot ∧ slot.ptr = nullBlock ∧
        ¬ pinned slot.frame := by
  induction n generalizing s with
  | zero => exact ⟨none, s, rfl, h, Keeps.refl s, fun i hi => nomatch hi⟩
  | succ n ih =>
      have hlt : s.hand < s.slots.length := by
        cases h.hand with
        | inl hzero =>
            rw [hzero]
            exact List.length_pos_of_ne_nil hne
        | inr hlt => exact hlt
      obtain ⟨slot, hslot⟩ : ∃ slot, s.slots[s.hand]? = some slot :=
        ⟨_, List.getElem?_eq_getElem hlt⟩
      rw [sweep, Checked.index_of_getElem? hslot, ok_bind]
      have hslot' : s.advance.slots[s.hand]? = some slot := hslot
      split
      case isTrue =>
        obtain ⟨hsound, hkeeps⟩ := (h.advance hne).visit hslot' false
        have hne' : (s.advance.put s.hand { slot with visited := false }).slots ≠ [] := by
          intro hnil
          have hlen := hkeeps.length
          rw [hnil] at hlen
          exact hne (List.eq_nil_of_length_eq_zero hlen.symm)
        obtain ⟨taken, s', hrun, hs', hk', htaken⟩ := ih hsound hne'
        have hstart : s.Keeps s.advance := ⟨rfl, fun _ _ hp _ => hp⟩
        exact ⟨taken, s', hrun, hs', (hstart.trans hkeeps).trans hk', htaken⟩
      case isFalse =>
        have hstart : s.Keeps s.advance := ⟨rfl, fun _ _ hp _ => hp⟩
        split
        case isTrue =>
          obtain ⟨taken, s', hrun, hs', hk', htaken⟩ := ih (h.advance hne) hne
          exact ⟨taken, s', hrun, hs', hstart.trans hk', htaken⟩
        case isFalse hfree =>
          obtain ⟨hsound, hkeeps⟩ := (h.advance hne).vacate hslot'
          refine ⟨_, _, rfl, hsound, hstart.trans hkeeps, fun i hi => ?_⟩
          cases hi
          exact ⟨{ slot with ptr := nullBlock }, getElem?_set_self_of hslot', rfl, hfree⟩

@[simp] theorem length_put (s : Shard) (i : ℕ) (slot : Slot) :
    (s.put i slot).slots.length = s.slots.length := List.length_set

/-- How far a hand among `len` slots is from the slot `j`. -/
def away (hand len j : ℕ) : ℕ := if hand ≤ j then j - hand else j + len - hand

theorem away_next {hand len j : ℕ} (hhand : hand < len) (hj : j < len) :
    away ((hand + 1) % len) len j + 1 = if hand = j then len else away hand len j := by
  have hnext : (hand + 1) % len = if hand + 1 = len then 0 else hand + 1 := by
    split
    case isTrue h => rw [h, Nat.mod_self]
    case isFalse h => exact Nat.mod_eq_of_lt (by omega)
  simp only [away, hnext]
  split_ifs <;> omega

/-- A slot that is not pinned is taken once the hand has come to it, or come to it again
where it was visited. -/
theorem sweep_takes (pinned : Frame → Prop) [DecidablePred pinned] {n j : ℕ} {s s' : Shard}
    {slot : Slot} {taken : Option ℕ} (hhand : s.hand < s.slots.length)
    (hj : s.slots[j]? = some slot) (hfree : ¬ pinned slot.frame)
    (hn : away s.hand s.slots.length j + (if slot.visited then s.slots.length else 0) < n)
    (hrun : s.sweep pinned n = .ok (taken, s')) : taken ≠ none := by
  induction n generalizing s slot with
  | zero => exact absurd hn (Nat.not_lt_zero _)
  | succ n ih =>
      have hjlt : j < s.slots.length := (List.getElem?_eq_some_iff.1 hj).1
      have hhand' : (s.hand + 1) % s.slots.length < s.slots.length :=
        Nat.mod_lt _ (Nat.lt_of_le_of_lt (Nat.zero_le _) hhand)
      have haway := away_next hhand hjlt
      obtain ⟨here, hat⟩ : ∃ here, s.slots[s.hand]? = some here :=
        ⟨_, List.getElem?_eq_getElem hhand⟩
      rw [sweep, Checked.index_of_getElem? hat, ok_bind] at hrun
      by_cases hhere : s.hand = j
      · rw [if_pos hhere] at haway
        rw [hhere, hj] at hat
        cases hat
        split at hrun
        case isTrue hvisited =>
          rw [if_pos hvisited] at hn
          have hunvisited : (s.advance.put s.hand { slot with visited := false }).slots[j]? =
              some { slot with visited := false } := by
            rw [hhere]
            exact getElem?_set_self_of hj
          have hfree' : ¬ pinned ({ slot with visited := false } : Slot).frame := hfree
          refine ih ?_ hunvisited hfree' ?_ hrun
          · rw [length_put]
            exact hhand'
          · rw [length_put]
            change away ((s.hand + 1) % s.slots.length) s.slots.length j + 0 < n
            omega
        case isFalse =>
          cases hrun
          exact Option.some_ne_none _
      · rw [if_neg hhere] at haway
        have hless : away ((s.hand + 1) % s.slots.length) s.slots.length j +
            (if slot.visited then s.slots.length else 0) < n := by omega
        split at hrun
        case isTrue =>
          have hkept : (s.advance.put s.hand { here with visited := false }).slots[j]? =
              some slot := by
            rw [Shard.put, List.getElem?_set_ne hhere]
            exact hj
          refine ih ?_ hkept hfree ?_ hrun
          · rw [length_put]
            exact hhand'
          · rw [length_put]
            exact hless
        case isFalse =>
          split at hrun
          case isTrue => exact ih (s := s.advance) hhand' hj hfree hless hrun
          case isFalse =>
            cases hrun
            exact Option.some_ne_none _

/-- Two full sweeps that take nothing found every slot pinned. -/
theorem evict_none {pinned : Frame → Prop} [DecidablePred pinned] {k : ℕ} {s s' : Shard}
    (h : s.Sound k) (hrun : s.evict pinned = .ok (none, s')) :
    ∀ slot ∈ s.slots, pinned slot.frame := by
  intro slot hmem
  by_contra hfree
  obtain ⟨j, hj⟩ := List.mem_iff_getElem?.1 hmem
  have hjlt : j < s.slots.length := (List.getElem?_eq_some_iff.1 hj).1
  have hhand : s.hand < s.slots.length := by
    cases h.hand with
    | inl hzero => exact hzero ▸ Nat.lt_of_le_of_lt (Nat.zero_le _) hjlt
    | inr hlt => exact hlt
  refine sweep_takes pinned hhand hj hfree ?_ hrun rfl
  have haway : away s.hand s.slots.length j < s.slots.length := by
    unfold away
    split <;> omega
  split <;> omega

theorem evict_spec (pinned : Frame → Prop) [DecidablePred pinned] {k : ℕ} {s : Shard}
    (h : s.Sound k) :
    ∃ taken s', s.evict pinned = .ok (taken, s') ∧ s'.Sound k ∧ s.Keeps s' ∧
      ∀ i, taken = some i → ∃ slot, s'.slots[i]? = some slot ∧ slot.ptr = nullBlock ∧
        ¬ pinned slot.frame := by
  by_cases hne : s.slots = []
  · refine ⟨none, s, ?_, h, Keeps.refl s, fun i hi => nomatch hi⟩
    rw [evict, hne]
    rfl
  · exact sweep_spec pinned h hne _

theorem remove_spec {k : ℕ} {s : Shard} (h : s.Sound k) (ptr : BlockPtr) :
    ∃ s', s.remove ptr = .ok s' ∧ s'.Sound k ∧ s.Keeps s' ∧
      ∀ i : ℕ, ptr ≠ nullBlock → s'.ptrs[i]? ≠ some ptr := by
  have hgone : ∀ s' : Shard, s'.Sound k → s'.map ptr = none →
      ∀ i : ℕ, ptr ≠ nullBlock → s'.ptrs[i]? ≠ some ptr := by
    intro s' hs' hnone i hnull hi
    exact nomatch hnone.symm.trans ((hs'.mapped ptr i).2 ⟨hnull, hi⟩)
  cases hmap : s.map ptr with
  | none => exact ⟨s, by rw [remove, hmap], h, Keeps.refl s, hgone s h hmap⟩
  | some i =>
      obtain ⟨hnull, hi⟩ := (h.mapped ptr i).1 hmap
      obtain ⟨slot, hslot, hptr⟩ := slot_of_ptrs hi
      obtain ⟨hsound, hkeeps⟩ := h.vacate hslot
      have hslot' : (s.vacate i slot).slots[i]? = some { slot with ptr := nullBlock } :=
        getElem?_set_self_of hslot
      obtain ⟨hsound', hkeeps'⟩ := hsound.visit hslot' false
      have hsame : (s.vacate i slot).put i { slot with ptr := nullBlock, visited := false } =
          { s with
            map := Function.update s.map ptr none
            slots := s.slots.set i { slot with ptr := nullBlock, visited := false } } := by
        have hptr' : slot.ptr ≠ nullBlock := hptr ▸ hnull
        rw [put, vacate, if_neg hptr', hptr, List.set_set]
      refine ⟨_, ?_, hsound', hkeeps.trans hkeeps', hgone _ hsound' ?_⟩
      · rw [remove, hmap]
        simp only [Checked.index_of_getElem? hslot, ok_bind]
        rw [hsame]
      · rw [hsame]
        exact Function.update_self _ _ _

end Shard

end Zu.File
