import Zu.Query.RecursiveLevels

/-!
# Sixty-four sources at once

After so many rounds a bit of a node's mask says that the source of the lane reaches the
node within them, or in so many hops and no fewer. Every new bit is emitted once.
-/

namespace Zu.Query

open Lib Checked

/-! ### Masks -/

/-- The bit of a lane in the mask of a node. -/
abbrev laneBit (masks : List (BitVec 64)) (v i : ℕ) : Prop := (maskAt masks v).getLsbD i = true

theorem ne_zero_iff_bit {x : BitVec 64} : x ≠ 0 ↔ ∃ i, x.getLsbD i = true := by
  constructor
  · intro hne
    exact ⟨x.ctz.toNat, BitVec.getLsbD_true_ctz_of_ne_zero hne⟩
  · rintro ⟨i, hi⟩ rfl
    simp at hi

theorem getLsbD_new {mask seen : BitVec 64} {i : ℕ} :
    (mask &&& ~~~seen).getLsbD i = true ↔ mask.getLsbD i = true ∧ ¬ seen.getLsbD i = true := by
  rw [BitVec.getLsbD_and, BitVec.getLsbD_not, Bool.and_eq_true, Bool.and_eq_true]
  simp only [decide_eq_true_eq, Bool.not_eq_true', Bool.not_eq_true]
  constructor
  · rintro ⟨hmask, -, hseen⟩
    exact ⟨hmask, hseen⟩
  · rintro ⟨hmask, hseen⟩
    exact ⟨hmask, BitVec.lt_of_getLsbD hmask, hseen⟩

theorem maskAt_replicate (n v : ℕ) : maskAt (List.replicate n 0) v = 0 := by
  rw [maskAt, List.getD_eq_getElem?_getD, List.getElem?_replicate]
  split <;> rfl

theorem maskAt_set {masks : List (BitVec 64)} {w : ℕ} (hw : w < masks.length) (x : BitVec 64) (v : ℕ) :
    maskAt (masks.set w x) v = if v = w then x else maskAt masks v := by
  rw [maskAt, List.getD_eq_getElem?_getD, List.getElem?_set]
  by_cases h : w = v
  · subst h
    simp [hw]
  · have hne : ¬ v = w := fun heq => h heq.symm
    rw [if_neg h, if_neg hne]
    rfl

theorem laneBit_modify {masks : List (BitVec 64)} {w : ℕ} (hw : w < masks.length) (x : BitVec 64)
    (v i : ℕ) :
    laneBit (masks.modify w (· ||| x)) v i ↔ laneBit masks v i ∨ v = w ∧ x.getLsbD i = true := by
  rw [laneBit, laneBit, maskAt, maskAt, List.getD_eq_getElem?_getD, List.getElem?_modify,
    List.getD_eq_getElem?_getD]
  by_cases h : w = v
  · subst h
    simp [hw, BitVec.getLsbD_or]
  · have hne : ¬ v = w := fun heq => h heq.symm
    simp [h, hne]

/-! ### The lanes of a level -/

/-- The source of a lane reaches the node in so many hops and no fewer. -/
def LaneLevel (g : Csr) (sources : List ℕ) (i d w : ℕ) : Prop :=
  ∃ s, sources[i]? = some s ∧ Level g.Adj (· ∈ [s]) d w

/-- The source of a lane reaches the node in so many hops or fewer. -/
def LaneWithin (g : Csr) (sources : List ℕ) (i d w : ℕ) : Prop :=
  ∃ s, sources[i]? = some s ∧ Within g.Adj (· ∈ [s]) d w

variable {g : Csr} {sources : List ℕ} {i d w : ℕ}

theorem laneLevel_lt (hg : g.Sound) (hs : ∀ s ∈ sources, s < g.nodeCount)
    (h : LaneLevel g sources i d w) : w < g.nodeCount := by
  obtain ⟨s, hget, hlevel⟩ := h
  refine level_lt_nodeCount hg (fun u hu => ?_) hlevel
  rw [List.mem_singleton] at hu
  rw [hu]
  exact hs s (List.mem_of_getElem? hget)

theorem laneLevel_zero : LaneLevel g sources i 0 w ↔ sources[i]? = some w := by
  rw [LaneLevel]
  simp only [level_zero, List.mem_singleton]
  constructor
  · rintro ⟨s, hget, rfl⟩
    exact hget
  · exact fun hget => ⟨w, hget, rfl⟩

theorem laneWithin_iff : LaneWithin g sources i d w ↔ ∃ e ≤ d, LaneLevel g sources i e w := by
  rw [LaneWithin]
  simp only [within_iff_level]
  constructor
  · rintro ⟨s, hget, e, he, hlevel⟩
    exact ⟨e, he, s, hget, hlevel⟩
  · rintro ⟨e, he, s, hget, hlevel⟩
    exact ⟨s, hget, e, he, hlevel⟩

/-- The lanes of the next level of a node: those of a level before it that lead to it, less
those that have reached it. -/
theorem laneLevel_succ : LaneLevel g sources i (d + 1) w ↔
    (∃ u, LaneLevel g sources i d u ∧ g.Adj u w) ∧ ¬ LaneWithin g sources i d w := by
  constructor
  · rintro ⟨s, hget, hlevel⟩
    obtain ⟨⟨u, hu, hadj⟩, hnone⟩ := level_succ.1 hlevel
    refine ⟨⟨u, ⟨s, hget, hu⟩, hadj⟩, ?_⟩
    rintro ⟨t, hget', hwithin⟩
    rw [hget, Option.some.injEq] at hget'
    rw [← hget'] at hwithin
    exact hnone hwithin
  · rintro ⟨⟨u, ⟨s, hget, hu⟩, hadj⟩, hnone⟩
    exact ⟨s, hget, level_succ.2 ⟨⟨u, hu, hadj⟩, fun hwithin => hnone ⟨s, hget, hwithin⟩⟩⟩

/-- What the events of a search are: for each source the nodes within the bound, once, with
the fewest hops. -/
def EventsRight (g : Csr) (sources : List ℕ) (maxHops : ℕ) (events : List Event) : Prop :=
  events.Nodup ∧ ∀ i w d, (i, w, d) ∈ events ↔ d ≤ maxHops ∧ LaneLevel g sources i d w

/-- The lanes after `d` rounds. -/
structure Advanced (g : Csr) (sources : List ℕ) (d : ℕ) (st : Lanes) : Prop where
  seen_length : st.seen.length = g.nodeCount
  mask_length : st.frontierMask.length = g.nodeCount
  next_length : st.nextMask.length = g.nodeCount
  seen : ∀ w i, laneBit st.seen w i ↔ LaneWithin g sources i d w
  mask : ∀ w i, laneBit st.frontierMask w i ↔ LaneLevel g sources i d w
  next : ∀ w, maskAt st.nextMask w = 0
  active : ∀ w, w ∈ st.active ↔ maskAt st.frontierMask w ≠ 0
  events : EventsRight g sources d st.events

/-! ### The first round -/

theorem advanced_empty : Advanced g [] 0 ⟨List.replicate g.nodeCount 0,
    List.replicate g.nodeCount 0, List.replicate g.nodeCount 0, [], []⟩ := by
  have hbit : ∀ w i, ¬ laneBit (List.replicate g.nodeCount 0) w i := by
    intro w i
    rw [laneBit, maskAt_replicate]
    simp
  have hlevel : ∀ w i, ¬ LaneLevel g [] i 0 w := by
    intro w i
    rw [laneLevel_zero]
    simp
  refine ⟨by simp, by simp, by simp, ?_, ?_, maskAt_replicate _, ?_, List.nodup_nil, ?_⟩
  · intro w i
    apply iff_of_false (hbit w i)
    rintro ⟨s, hget, -⟩
    simp at hget
  · intro w i
    exact iff_of_false (hbit w i) (hlevel w i)
  · intro w
    rw [maskAt_replicate]
    simp
  · rintro i w d
    simp only [List.not_mem_nil, false_iff, not_and]
    intro _ hlev
    obtain ⟨s, hget, -⟩ := hlev
    simp at hget

theorem laneWithin_zero : LaneWithin g sources i 0 w ↔ LaneLevel g sources i 0 w := by
  rw [laneWithin_iff]
  constructor
  · rintro ⟨e, he, hlevel⟩
    rw [Nat.le_zero.1 he] at hlevel
    exact hlevel
  · exact fun hlevel => ⟨0, Nat.le_refl 0, hlevel⟩

theorem Advanced.claimSource {st : Lanes} (h : Advanced g sources 0 st)
    (hlanes : sources.length < 64) {s : ℕ} (hs : s < g.nodeCount) :
    Advanced g (sources ++ [s]) 0 (st.claimSource (s, sources.length)) := by
  have hbit : ∀ i, (1#64 <<< sources.length).getLsbD i = true ↔ i = sources.length := by
    intro i
    have htwo : 1#64 <<< sources.length = BitVec.twoPow 64 sources.length :=
      (BitVec.twoPow_eq 64 sources.length).symm
    rw [htwo, BitVec.getLsbD_twoPow]
    simp [hlanes, eq_comm]
  have hlevel : ∀ w i, LaneLevel g (sources ++ [s]) i 0 w ↔
      LaneLevel g sources i 0 w ∨ w = s ∧ i = sources.length := by
    intro w i
    rw [laneLevel_zero, laneLevel_zero, List.getElem?_append]
    split
    case isTrue hlt =>
      have hne : i ≠ sources.length := Nat.ne_of_lt hlt
      simp [hne]
    case isFalse hge =>
      have hnone : sources[i]? = none := List.getElem?_eq_none (by omega)
      rw [hnone]
      rcases Nat.eq_or_lt_of_le (Nat.le_of_not_lt hge) with heq | hgt
      · rw [← heq]
        simp [eq_comm]
      · have hne : i ≠ sources.length := Nat.ne_of_gt hgt
        have hpos : i - sources.length ≠ 0 := by omega
        simp [hne, hpos]
  have hmask : ∀ w i, laneBit (st.frontierMask.modify s (· ||| 1#64 <<< sources.length)) w i ↔
      LaneLevel g (sources ++ [s]) i 0 w := by
    intro w i
    rw [laneBit_modify (by rwa [h.mask_length]), h.mask, hlevel, hbit]
  refine ⟨?_, ?_, h.next_length, ?_, hmask, h.next, ?_, ?_, ?_⟩
  · exact (List.length_modify ..).trans h.seen_length
  · exact (List.length_modify ..).trans h.mask_length
  · intro w i
    rw [laneWithin_zero, hlevel, Lanes.claimSource, laneBit_modify (by rwa [h.seen_length]), h.seen,
      laneWithin_zero, hbit]
  · intro w
    have hbits : maskAt (st.claimSource (s, sources.length)).frontierMask w ≠ 0 ↔
        maskAt st.frontierMask w ≠ 0 ∨ w = s := by
      rw [ne_zero_iff_bit, ne_zero_iff_bit]
      constructor
      · rintro ⟨i, hi⟩
        rcases (hlevel w i).1 ((hmask w i).1 hi) with hold | hnew
        · exact Or.inl ⟨i, (h.mask w i).2 hold⟩
        · exact Or.inr hnew.1
      · rintro (⟨i, hi⟩ | rfl)
        · exact ⟨i, (hmask w i).2 ((hlevel w i).2 (Or.inl ((h.mask w i).1 hi)))⟩
        · exact ⟨sources.length, (hmask w _).2 ((hlevel w _).2 (Or.inr ⟨rfl, rfl⟩))⟩
    rw [hbits, ← h.active]
    simp only [Lanes.claimSource]
    split
    case isTrue => rw [List.mem_append, List.mem_singleton]
    case isFalse hne =>
      rw [← ne_eq, ← h.active] at hne
      constructor
      · exact Or.inl
      · rintro (hw | rfl)
        · exact hw
        · exact hne
  · rw [Lanes.claimSource]
    simp only
    rw [List.nodup_append]
    refine ⟨h.events.1, List.nodup_singleton _, fun a ha b hb hab => ?_⟩
    rw [List.mem_singleton] at hb
    subst hb
    subst hab
    obtain ⟨-, hlev⟩ := (h.events.2 _ _ _).1 ha
    rw [laneLevel_zero] at hlev
    simp at hlev
  · intro i w d
    rw [Lanes.claimSource]
    simp only
    rw [List.mem_append, h.events.2, List.mem_singleton, Prod.mk.injEq, Prod.mk.injEq]
    constructor
    · rintro (⟨hd, hlev⟩ | ⟨rfl, rfl, rfl⟩)
      · obtain rfl : d = 0 := Nat.le_zero.1 hd
        exact ⟨hd, (hlevel w i).2 (Or.inl hlev)⟩
      · exact ⟨Nat.le_refl 0, (hlevel _ _).2 (Or.inr ⟨rfl, rfl⟩)⟩
    · rintro ⟨hd, hlev⟩
      obtain rfl : d = 0 := Nat.le_zero.1 hd
      rcases (hlevel w i).1 hlev with hold | ⟨rfl, rfl⟩
      · exact Or.inl ⟨hd, hold⟩
      · exact Or.inr ⟨rfl, rfl, rfl⟩

theorem advanced_start (hs : ∀ s ∈ sources, s < g.nodeCount) (hlanes : sources.length ≤ 64) :
    Advanced g sources 0 (Lanes.start g.nodeCount sources) := by
  have hall : ∀ (rest first : List ℕ) (st : Lanes), Advanced g first 0 st →
      (∀ s ∈ rest, s < g.nodeCount) → (first ++ rest).length ≤ 64 →
        Advanced g (first ++ rest) 0 ((rest.zipIdx first.length).foldl Lanes.claimSource st) := by
    intro rest
    induction rest with
    | nil =>
        intro first st h _ _
        rw [List.append_nil]
        exact h
    | cons s rest ih =>
        intro first st h hrest hlen
        rw [List.length_append, List.length_cons] at hlen
        have hstep := h.claimSource (by omega) (hrest s List.mem_cons_self)
        have hnext := ih (first ++ [s]) _ hstep (fun u hu => hrest u (List.mem_cons_of_mem s hu))
          (by simp only [List.length_append, List.length_singleton]; omega)
        rw [List.append_assoc, List.length_append] at hnext
        exact hnext
  exact hall sources [] _ advanced_empty hs hlanes

/-! ### A round -/

/-- The next masks once some neighbors were taken: the bits they have, and the nodes that
have one. -/
structure Spread (n : ℕ) (bits : ℕ → ℕ → Prop) (next : List (BitVec 64) × List ℕ) : Prop where
  length : next.1.length = n
  bits : ∀ w i, laneBit next.1 w i ↔ bits w i
  once : next.2.Nodup
  nodes : ∀ w, w ∈ next.2 ↔ maskAt next.1 w ≠ 0

theorem Spread.to {n : ℕ} {bits : ℕ → ℕ → Prop} {next : List (BitVec 64) × List ℕ}
    (h : Spread n bits next) (seen : List (BitVec 64)) (mask : BitVec 64) {w : ℕ} (hw : w < n) :
    Spread n (fun v i => bits v i ∨ v = w ∧ mask.getLsbD i = true ∧ ¬ laneBit seen w i)
      (spreadTo seen mask next w) := by
  have hnew : ∀ i, (mask &&& ~~~(maskAt seen w)).getLsbD i = true ↔
      mask.getLsbD i = true ∧ ¬ laneBit seen w i := fun i => getLsbD_new
  rw [spreadTo]
  split
  case isTrue hzero =>
    refine ⟨h.length, fun v i => ?_, h.once, h.nodes⟩
    rw [h.bits]
    constructor
    · exact Or.inl
    · rintro (hold | ⟨-, hbit⟩)
      · exact hold
      · rw [← hnew, hzero] at hbit
        simp at hbit
  case isFalse hne =>
    have hroom : w < next.1.length := by rwa [h.length]
    have hbits : ∀ v, maskAt (next.1.modify w (· ||| (mask &&& ~~~(maskAt seen w)))) v ≠ 0 ↔
        maskAt next.1 v ≠ 0 ∨ v = w := by
      intro v
      rw [ne_zero_iff_bit, ne_zero_iff_bit]
      constructor
      · rintro ⟨i, hi⟩
        rcases (laneBit_modify hroom _ v i).1 hi with hold | ⟨hv, -⟩
        · exact Or.inl ⟨i, hold⟩
        · exact Or.inr hv
      · rintro (⟨i, hi⟩ | rfl)
        · exact ⟨i, (laneBit_modify hroom _ v i).2 (Or.inl hi)⟩
        · obtain ⟨i, hi⟩ := ne_zero_iff_bit.1 hne
          exact ⟨i, (laneBit_modify hroom _ v i).2 (Or.inr ⟨rfl, hi⟩)⟩
    refine ⟨(List.length_modify ..).trans h.length, fun v i => ?_, ?_, fun v => ?_⟩
    · rw [laneBit_modify hroom, h.bits, hnew]
    · simp only
      split
      case isTrue hfirst =>
        rw [List.nodup_append]
        refine ⟨h.once, List.nodup_singleton w, fun a ha b hb hab => ?_⟩
        rw [List.mem_singleton] at hb
        rw [hab, hb, h.nodes] at ha
        exact ha hfirst
      case isFalse => exact h.once
    · rw [hbits, ← h.nodes]
      simp only
      split
      case isTrue => rw [List.mem_append, List.mem_singleton]
      case isFalse hold =>
        rw [← ne_eq, ← h.nodes] at hold
        constructor
        · exact Or.inl
        · rintro (hv | rfl)
          · exact hv
          · exact hold

theorem Spread.congr {n : ℕ} {bits bits' : ℕ → ℕ → Prop} {next : List (BitVec 64) × List ℕ}
    (h : Spread n bits next) (heq : ∀ w i, bits w i ↔ bits' w i) : Spread n bits' next :=
  ⟨h.length, fun w i => (h.bits w i).trans (heq w i), h.once, h.nodes⟩

theorem Spread.row {n : ℕ} {bits : ℕ → ℕ → Prop} {next : List (BitVec 64) × List ℕ}
    (h : Spread n bits next) (seen : List (BitVec 64)) (mask : BitVec 64) {ws : List ℕ}
    (hws : ∀ w ∈ ws, w < n) :
    Spread n (fun v i => bits v i ∨ v ∈ ws ∧ mask.getLsbD i = true ∧ ¬ laneBit seen v i)
      (ws.foldl (spreadTo seen mask) next) := by
  induction ws generalizing bits next with
  | nil => simpa using h
  | cons w ws ih =>
      refine (ih (h.to seen mask (hws w List.mem_cons_self)) fun u hu =>
        hws u (List.mem_cons_of_mem w hu)).congr fun v i => ?_
      rw [List.mem_cons]
      constructor
      · rintro ((hold | ⟨rfl, hbit⟩) | ⟨hv, hbit⟩)
        · exact Or.inl hold
        · exact Or.inr ⟨Or.inl rfl, hbit⟩
        · exact Or.inr ⟨Or.inr hv, hbit⟩
      · rintro (hold | ⟨rfl | hv, hbit⟩)
        · exact Or.inl (Or.inl hold)
        · exact Or.inl (Or.inr ⟨rfl, hbit⟩)
        · exact Or.inr ⟨hv, hbit⟩

/-- The nodes of the last round spread their masks over their rows. -/
theorem Spread.rows {bits : ℕ → ℕ → Prop} {next : List (BitVec 64) × List ℕ} (hg : g.Sound)
    (h : Spread g.nodeCount bits next) (seen frontierMask : List (BitVec 64)) {active : List ℕ}
    (hactive : ∀ v ∈ active, v < g.nodeCount) :
    Spread g.nodeCount (fun v i => bits v i ∨
        (∃ u ∈ active, v ∈ g.row u ∧ laneBit frontierMask u i) ∧ ¬ laneBit seen v i)
      (active.foldl (spreadFrom g seen frontierMask) next) := by
  induction active generalizing bits next with
  | nil => simpa using h
  | cons u active ih =>
      have hrow := h.row seen (maskAt frontierMask u) (hg u (hactive u List.mem_cons_self))
      refine (ih hrow fun w hw => hactive w (List.mem_cons_of_mem u hw)).congr fun v i => ?_
      constructor
      · rintro ((hold | ⟨hv, hbit, hnew⟩) | ⟨⟨w, hw, hbit⟩, hnew⟩)
        · exact Or.inl hold
        · exact Or.inr ⟨⟨u, List.mem_cons_self, hv, hbit⟩, hnew⟩
        · exact Or.inr ⟨⟨w, List.mem_cons_of_mem u hw, hbit⟩, hnew⟩
      · rintro (hold | ⟨⟨w, hw, hv, hbit⟩, hnew⟩)
        · exact Or.inl (Or.inl hold)
        · rcases List.mem_cons.1 hw with rfl | hw
          · exact Or.inl (Or.inr ⟨hv, hbit, hnew⟩)
          · exact Or.inr ⟨⟨w, hw, hv, hbit⟩, hnew⟩

/-- The lanes once some nodes of the next round were settled. -/
structure Settled (start : Lanes) (depth : ℕ) (done : List ℕ) (st : Lanes) : Prop where
  seen_length : st.seen.length = start.seen.length
  mask_length : st.frontierMask.length = start.frontierMask.length
  next_length : st.nextMask.length = start.nextMask.length
  seen : ∀ w i, laneBit st.seen w i ↔ laneBit start.seen w i ∨ w ∈ done ∧ laneBit start.nextMask w i
  mask : ∀ w, maskAt st.frontierMask w =
    if w ∈ done then maskAt start.nextMask w else maskAt start.frontierMask w
  next : ∀ w, maskAt st.nextMask w = if w ∈ done then 0 else maskAt start.nextMask w
  once : st.events.Nodup
  events : ∀ i w d, (i, w, d) ∈ st.events ↔
    (i, w, d) ∈ start.events ∨ d = depth ∧ w ∈ done ∧ laneBit start.nextMask w i

theorem Settled.refl {start : Lanes} {depth : ℕ} (honce : start.events.Nodup) :
    Settled start depth [] start :=
  ⟨rfl, rfl, rfl, by simp, by simp, by simp, honce, by simp⟩

theorem Settled.settle {start st : Lanes} {depth n : ℕ} {done : List ℕ}
    (hseen : start.seen.length = n) (hmask : start.frontierMask.length = n)
    (hnext : start.nextMask.length = n) (hold : ∀ i w d, (i, w, d) ∈ start.events → d < depth)
    (h : Settled start depth done st) {w : ℕ} (hw : w < n) (hfresh : w ∉ done) :
    Settled start depth (done ++ [w]) (st.settle depth w) := by
  have hnew : maskAt st.nextMask w = maskAt start.nextMask w := by rw [h.next, if_neg hfresh]
  have hmem : ∀ v, v ∈ done ++ [w] ↔ v ∈ done ∨ v = w := fun v => by
    rw [List.mem_append, List.mem_singleton]
  refine ⟨?_, ?_, ?_, fun v i => ?_, fun v => ?_, fun v => ?_, ?_, fun i v d => ?_⟩
  · exact (List.length_modify ..).trans h.seen_length
  · exact List.length_set.trans h.mask_length
  · exact List.length_set.trans h.next_length
  · rw [Lanes.settle, laneBit_modify (by rwa [h.seen_length, hseen]), h.seen, hmem, hnew]
    constructor
    · rintro ((hs | ⟨hv, hbit⟩) | ⟨rfl, hbit⟩)
      · exact Or.inl hs
      · exact Or.inr ⟨Or.inl hv, hbit⟩
      · exact Or.inr ⟨Or.inr rfl, hbit⟩
    · rintro (hs | ⟨hv | rfl, hbit⟩)
      · exact Or.inl (Or.inl hs)
      · exact Or.inl (Or.inr ⟨hv, hbit⟩)
      · exact Or.inr ⟨rfl, hbit⟩
  · rw [Lanes.settle, maskAt_set (by rwa [h.mask_length, hmask]), h.mask, hnew]
    by_cases hv : v = w
    · simp [hv]
    · simp [hv]
  · rw [Lanes.settle, maskAt_set (by rwa [h.next_length, hnext]), h.next]
    by_cases hv : v = w
    · simp [hv]
    · simp [hv]
  · rw [Lanes.settle]
    simp only
    rw [List.nodup_append]
    refine ⟨h.once, ?_, fun a ha b hb hab => ?_⟩
    · refine nodup_lanesOf.map fun a b heq => ?_
      exact congrArg Prod.fst heq
    · obtain ⟨lane, -, rfl⟩ := List.mem_map.1 hb
      subst hab
      rcases (h.events _ _ _).1 ha with hev | ⟨-, hdone, -⟩
      · exact absurd (hold _ _ _ hev) (Nat.lt_irrefl depth)
      · exact hfresh hdone
  · rw [Lanes.settle]
    simp only
    rw [List.mem_append, h.events, hmem, List.mem_map, hnew]
    simp only [mem_lanesOf, Prod.mk.injEq]
    constructor
    · rintro ((hev | ⟨hd, hv, hbit⟩) | ⟨lane, hbit, rfl, rfl, rfl⟩)
      · exact Or.inl hev
      · exact Or.inr ⟨hd, Or.inl hv, hbit⟩
      · exact Or.inr ⟨rfl, Or.inr rfl, hbit⟩
    · rintro (hev | ⟨rfl, hv | rfl, hbit⟩)
      · exact Or.inl (Or.inl hev)
      · exact Or.inl (Or.inr ⟨rfl, hv, hbit⟩)
      · exact Or.inr ⟨i, hbit, rfl, rfl, rfl⟩

theorem Settled.all {start : Lanes} {depth n : ℕ} (hseen : start.seen.length = n)
    (hmask : start.frontierMask.length = n) (hnext : start.nextMask.length = n)
    (hold : ∀ i w d, (i, w, d) ∈ start.events → d < depth) {rest : List ℕ} :
    ∀ {done : List ℕ} {st : Lanes}, Settled start depth done st → (done ++ rest).Nodup →
      (∀ w ∈ rest, w < n) → Settled start depth (done ++ rest) (rest.foldl (Lanes.settle depth) st) := by
  induction rest with
  | nil =>
      intro done st h _ _
      rw [List.append_nil]
      exact h
  | cons w rest ih =>
      intro done st h hnodup hrest
      have hfresh : w ∉ done := by
        intro hw
        exact (List.nodup_append.1 hnodup).2.2 w hw w List.mem_cons_self rfl
      have hstep := h.settle hseen hmask hnext hold (hrest w List.mem_cons_self) hfresh
      have hall := ih hstep (by rwa [List.append_assoc]) fun u hu => hrest u (List.mem_cons_of_mem w hu)
      rw [List.append_assoc] at hall
      exact hall

theorem length_foldl_clear (active : List ℕ) (masks : List (BitVec 64)) :
    (active.foldl (fun masks v => masks.set v 0) masks).length = masks.length := by
  induction active generalizing masks with
  | nil => rfl
  | cons v active ih => rw [List.foldl_cons, ih, List.length_set]

theorem maskAt_foldl_clear {active : List ℕ} {masks : List (BitVec 64)}
    (h : ∀ v ∈ active, v < masks.length) (w : ℕ) :
    maskAt (active.foldl (fun masks v => masks.set v 0) masks) w =
      if w ∈ active then 0 else maskAt masks w := by
  induction active generalizing masks with
  | nil => simp
  | cons v active ih =>
      have hset := maskAt_set (h v List.mem_cons_self) 0 w
      rw [List.foldl_cons, ih fun u hu => by
        rw [List.length_set]
        exact h u (List.mem_cons_of_mem v hu), hset]
      by_cases hw : w = v
      · simp [hw]
      · simp [hw]

theorem Advanced.round (hg : g.Sound) (hs : ∀ s ∈ sources, s < g.nodeCount) {st : Lanes}
    (h : Advanced g sources d st) : Advanced g sources (d + 1) (laneRound g (d + 1) st) := by
  have hactive : ∀ v, v ∈ st.active ↔ ∃ i, LaneLevel g sources i d v := by
    intro v
    rw [h.active, ne_zero_iff_bit]
    exact exists_congr fun i => h.mask v i
  have hroom : ∀ v ∈ st.active, v < g.nodeCount := by
    intro v hv
    obtain ⟨i, hi⟩ := (hactive v).1 hv
    exact laneLevel_lt hg hs hi
  have hnone : Spread g.nodeCount (fun _ _ => False) (st.nextMask, ([] : List ℕ)) := by
    refine ⟨h.next_length, fun w i => ?_, List.nodup_nil, fun w => ?_⟩
    · rw [laneBit, h.next]
      simp
    · rw [h.next]
      simp
  obtain ⟨next, hnext⟩ : ∃ next, next =
      st.active.foldl (spreadFrom g st.seen st.frontierMask) (st.nextMask, []) := ⟨_, rfl⟩
  have hspread : Spread g.nodeCount (fun w i => LaneLevel g sources i (d + 1) w) next := by
    rw [hnext]
    refine (hnone.rows hg st.seen st.frontierMask hroom).congr fun w i => ?_
    rw [false_or, h.seen, laneLevel_succ]
    apply and_congr_left
    intro _
    constructor
    · rintro ⟨u, hu, hw, hbit⟩
      exact ⟨u, (h.mask u i).1 hbit, hroom u hu, hw⟩
    · rintro ⟨u, hlevel, -, hw⟩
      exact ⟨u, (hactive u).2 ⟨i, hlevel⟩, hw, (h.mask u i).2 hlevel⟩
  have hnodes : ∀ w, w ∈ next.2 ↔ ∃ i, LaneLevel g sources i (d + 1) w := by
    intro w
    rw [hspread.nodes, ne_zero_iff_bit]
    exact exists_congr fun i => hspread.bits w i
  obtain ⟨cleared, hcleared⟩ : ∃ cleared, cleared =
      st.active.foldl (fun masks v => masks.set v 0) st.frontierMask := ⟨_, rfl⟩
  have hclear : ∀ w, maskAt cleared w = 0 := by
    intro w
    rw [hcleared, maskAt_foldl_clear (by rwa [h.mask_length])]
    split
    case isTrue => rfl
    case isFalse hw =>
      rw [h.active, not_not] at hw
      exact hw
  have hold : ∀ i w e, (i, w, e) ∈ st.events → e < d + 1 := by
    intro i w e he
    exact Nat.lt_succ_of_le ((h.events.2 i w e).1 he).1
  have hsettled : Settled { st with nextMask := next.1, frontierMask := cleared } (d + 1) next.2
      (next.2.foldl (Lanes.settle (d + 1)) { st with nextMask := next.1, frontierMask := cleared }) := by
    refine @Settled.all { st with nextMask := next.1, frontierMask := cleared } (d + 1) g.nodeCount
      h.seen_length ?_ hspread.length hold next.2 [] _ (Settled.refl h.events.1) hspread.once
        fun w hw => ?_
    · rw [hcleared]
      exact (length_foldl_clear _ _).trans h.mask_length
    · obtain ⟨i, hi⟩ := (hnodes w).1 hw
      exact laneLevel_lt hg hs hi
  have hmask : ∀ w, maskAt (laneRound g (d + 1) st).frontierMask w = maskAt next.1 w := by
    intro w
    have hw := hsettled.mask w
    simp only [hclear] at hw
    rw [laneRound, ← hnext, ← hcleared]
    refine hw.trans ?_
    split
    case isTrue => rfl
    case isFalse hout =>
      rw [hspread.nodes, not_not] at hout
      exact hout.symm
  have hin : ∀ w i, w ∈ next.2 ∧ laneBit next.1 w i ↔ LaneLevel g sources i (d + 1) w := by
    intro w i
    rw [hspread.bits, hnodes]
    constructor
    · exact And.right
    · exact fun hlevel => ⟨⟨i, hlevel⟩, hlevel⟩
  have hround : laneRound g (d + 1) st = { next.2.foldl (Lanes.settle (d + 1))
      { st with nextMask := next.1, frontierMask := cleared } with active := next.2 } := by
    rw [laneRound, ← hnext, ← hcleared]
  have hwithin : ∀ w i, LaneWithin g sources i (d + 1) w ↔
      LaneWithin g sources i d w ∨ LaneLevel g sources i (d + 1) w := by
    intro w i
    rw [laneWithin_iff, laneWithin_iff]
    constructor
    · rintro ⟨e, he, hlevel⟩
      rcases Nat.lt_or_ge d e with hlt | hle
      · obtain rfl : e = d + 1 := Nat.le_antisymm he hlt
        exact Or.inr hlevel
      · exact Or.inl ⟨e, hle, hlevel⟩
    · rintro (⟨e, he, hlevel⟩ | hlevel)
      · exact ⟨e, he.trans (Nat.le_succ d), hlevel⟩
      · exact ⟨d + 1, Nat.le_refl _, hlevel⟩
  constructor
  · rw [hround]
    exact hsettled.seen_length.trans h.seen_length
  · rw [hround]
    refine hsettled.mask_length.trans ?_
    rw [hcleared]
    exact (length_foldl_clear _ _).trans h.mask_length
  · rw [hround]
    exact hsettled.next_length.trans hspread.length
  · intro w i
    rw [hround]
    refine (hsettled.seen w i).trans ?_
    rw [hin, hwithin, h.seen]
  · intro w i
    rw [laneBit, hmask]
    exact hspread.bits w i
  · intro w
    rw [hround]
    refine (hsettled.next w).trans ?_
    split
    case isTrue => rfl
    case isFalse hout =>
      rw [hspread.nodes, not_not] at hout
      exact hout
  · intro w
    rw [hmask, hround]
    exact hspread.nodes w
  · rw [hround]
    refine ⟨hsettled.once, fun i w e => ?_⟩
    refine (hsettled.events i w e).trans ?_
    rw [hin, h.events.2]
    constructor
    · rintro (⟨he, hlevel⟩ | ⟨rfl, hlevel⟩)
      · exact ⟨he.trans (Nat.le_succ d), hlevel⟩
      · exact ⟨Nat.le_refl _, hlevel⟩
    · rintro ⟨he, hlevel⟩
      rcases Nat.lt_or_ge d e with hlt | hle
      · obtain rfl : e = d + 1 := Nat.le_antisymm he hlt
        exact Or.inr ⟨rfl, hlevel⟩
      · exact Or.inl ⟨hle, hlevel⟩

/-! ### Every round -/

/-- Where no node is active, or the bound is reached, the events are right. -/
theorem Advanced.right {maxHops : ℕ} {st : Lanes} (h : Advanced g sources d st) (hd : d ≤ maxHops)
    (hstop : st.active = [] ∨ d = maxHops) : EventsRight g sources maxHops st.events := by
  refine ⟨h.events.1, fun i w e => ?_⟩
  rw [h.events.2]
  constructor
  · rintro ⟨he, hlevel⟩
    exact ⟨he.trans hd, hlevel⟩
  · rintro ⟨he, hlevel⟩
    refine ⟨?_, hlevel⟩
    rcases hstop with hempty | rfl
    · obtain ⟨s, hget, hlev⟩ := hlevel
      by_contra hgt
      obtain ⟨u, hu⟩ := exists_level hlev d (Nat.le_of_not_le hgt)
      have hactive : u ∈ st.active := by
        rw [h.active, ne_zero_iff_bit]
        exact ⟨i, (h.mask u i).2 ⟨s, hget, hu⟩⟩
      rw [hempty] at hactive
      exact absurd hactive List.not_mem_nil
    · exact he

theorem laneRounds_right (hg : g.Sound) (hs : ∀ s ∈ sources, s < g.nodeCount) {maxHops : ℕ}
    (left : ℕ) : ∀ {d : ℕ} {st : Lanes}, Advanced g sources d st → d + left = maxHops →
      EventsRight g sources maxHops (laneRounds g left d st).events := by
  induction left with
  | zero =>
      intro d st h hd
      exact h.right hd.le (Or.inr hd)
  | succ left ih =>
      intro d st h hd
      rw [laneRounds]
      split
      case isTrue hempty => exact h.right (by omega) (Or.inl hempty)
      case isFalse => exact ih (h.round hg hs) (by omega)

theorem multiSourceBfs_right (hg : g.Sound) (hs : ∀ s ∈ sources, s < g.nodeCount)
    (hlanes : sources.length ≤ msbfsLanes) (maxHops : ℕ) :
    EventsRight g sources maxHops (multiSourceBfs g sources maxHops) :=
  laneRounds_right hg hs maxHops (advanced_start hs hlanes) (Nat.zero_add maxHops)

end Zu.Query
