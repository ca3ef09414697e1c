import Zu.Query.RecursiveLanes

/-!
# The modes of a search

The batches of many sources are received whole, whatever the order of the threads that send
them, and a search of one source is turned into its events. Both sides of the switch emit
the same, where the counts of sources and of threads have room.
-/

namespace Zu.Query

open Lib Checked

/-! ### What is received of the morsels -/

/-- What was sent and what is held is what was taken. -/
structure Sending (batches : List (List (List Event))) (st : (ℕ × List Event) × List Morsel) :
    Prop where
  taken : (st.1.2 ++ st.2.flatMap fun k => k.held.flatten).Perm
    (batches.take st.1.1).flatten.flatten
  ended : ∀ k ∈ st.2, k.ended = true → k.held = [] ∧ batches.length ≤ st.1.1
  someone : st.2 ≠ []

theorem Sending.step {batches : List (List (List Event))} {s : ℕ × List Event}
    {before after : List Morsel} {k : Morsel} (h : Sending batches (s, before ++ k :: after)) :
    Sending batches (((morsels batches).step s k).1,
      before ++ ((morsels batches).step s k).2 :: after) := by
  obtain ⟨cursor, received⟩ := s
  obtain ⟨held, ended⟩ := k
  have htaken := h.taken
  have hended := h.ended
  simp only [List.flatMap_append, List.flatMap_cons, List.mem_append, List.mem_cons] at htaken hended
  have hsome : ∀ k : Morsel, before ++ k :: after ≠ [] := by simp
  cases ended with
  | true => exact h
  | false =>
      cases held with
      | cons chunk rest =>
          have hstep : (morsels batches).step (cursor, received) ⟨chunk :: rest, false⟩ =
              ((cursor, received ++ chunk), ⟨rest, false⟩) := rfl
          rw [hstep]
          refine ⟨?_, ?_, hsome _⟩
          · refine List.Perm.trans ?_ htaken
            simp only [List.flatMap_append, List.flatMap_cons, List.flatten_cons, List.append_assoc]
            apply List.Perm.append_left
            have hswap := @List.perm_append_comm_assoc Event chunk
              (before.flatMap fun k => k.held.flatten) (rest.flatten ++
                after.flatMap fun k => k.held.flatten)
            exact hswap
          · simp only [List.mem_append, List.mem_cons]
            rintro k (hk | rfl | hk) hend
            · exact hended k (Or.inl hk) hend
            · cases hend
            · exact hended k (Or.inr (Or.inr hk)) hend
      | nil =>
          cases hb : batches[cursor]? with
          | none =>
              have hstep : (morsels batches).step (cursor, received) ⟨[], false⟩ =
                  ((cursor + 1, received), ⟨[], true⟩) := by
                simp [morsels, hb]
              have hlen : batches.length ≤ cursor := List.getElem?_eq_none_iff.1 hb
              have hlen' : batches.length ≤ cursor + 1 := hlen.trans (Nat.le_succ cursor)
              rw [hstep]
              refine ⟨?_, ?_, hsome _⟩
              · rw [List.take_of_length_le hlen] at htaken
                rw [List.take_of_length_le hlen']
                simpa using htaken
              · simp only [List.mem_append, List.mem_cons]
                rintro k (hk | rfl | hk) hend
                · exact ⟨(hended k (Or.inl hk) hend).1, hlen'⟩
                · exact ⟨rfl, hlen'⟩
                · exact ⟨(hended k (Or.inr (Or.inr hk)) hend).1, hlen'⟩
          | some batch =>
              have hstep : (morsels batches).step (cursor, received) ⟨[], false⟩ =
                  ((cursor + 1, received), ⟨batch, false⟩) := by
                simp [morsels, hb]
              rw [hstep]
              refine ⟨?_, ?_, hsome _⟩
              · have htake : batches.take (cursor + 1) = batches.take cursor ++ [batch] := by
                  rw [List.take_add_one, hb]
                  rfl
                simp only [List.flatMap_append, List.flatMap_cons, htake, List.flatten_append,
                  List.flatten_singleton]
                simp only [List.flatten_nil, List.nil_append] at htaken
                refine List.Perm.trans ?_ (htaken.append_right batch.flatten)
                simp only [List.append_assoc]
                apply List.Perm.append_left
                apply List.Perm.append_left
                exact List.perm_append_comm
              · simp only [List.mem_append, List.mem_cons]
                rintro k (hk | rfl | hk) hend
                · obtain ⟨hheld, hlen⟩ := hended k (Or.inl hk) hend
                  exact ⟨hheld, hlen.trans (Nat.le_succ cursor)⟩
                · cases hend
                · obtain ⟨hheld, hlen⟩ := hended k (Or.inr (Or.inr hk)) hend
                  exact ⟨hheld, hlen.trans (Nat.le_succ cursor)⟩

theorem morsels_received (batches : List (List (List Event))) {threads : ℕ} (ht : 0 < threads)
    (schedule : List ℕ) :
    ((morsels batches).work ((0, []), List.replicate threads ⟨[], false⟩) schedule).1.2.Perm
      batches.flatten.flatten := by
  have hstart : Sending batches ((0, []), List.replicate threads ⟨[], false⟩) := by
    refine ⟨?_, ?_, ?_⟩
    · simp
    · intro k hk hend
      rw [List.eq_of_mem_replicate hk] at hend
      cases hend
    · intro hnil
      have := congrArg List.length hnil
      simp at this
      omega
  have hend : Sending batches
      ((morsels batches).work ((0, []), List.replicate threads ⟨[], false⟩) schedule) :=
    Worker.work_induction (fun s before k after h => h.step) schedule hstart
  have hdone := Worker.work_done (m := morsels batches)
    ((0, []), List.replicate threads ⟨[], false⟩) schedule
  generalize (morsels batches).work ((0, []), List.replicate threads ⟨[], false⟩) schedule = st at hend hdone
  have hall : ∀ k ∈ st.2, k.ended = true := by
    intro k hk
    have htodo : (if k.ended then 0 else _) = 0 := hdone k hk
    by_contra hne
    rw [if_neg hne] at htodo
    cases htodo
  obtain ⟨k, hk⟩ := List.exists_mem_of_ne_nil _ hend.someone
  have hlen := (hend.ended k hk (hall k hk)).2
  have hnone : (st.2.flatMap fun k => k.held.flatten) = [] := by
    rw [List.flatMap_eq_nil_iff]
    intro k hk
    rw [(hend.ended k hk (hall k hk)).1]
    rfl
  have htaken := hend.taken
  rw [hnone, List.append_nil, List.take_of_length_le hlen] at htaken
  exact htaken

theorem flatten_sends (events : List Event) : (sends events).flatten = events := by
  rw [sends, List.flatten_append, asChunks, flatten_chunks (by decide), List.flatten_singleton,
    List.take_append_drop]

/-! ### Many sources -/

variable {g : Csr} {sources : List ℕ} {maxHops : ℕ}

theorem batches_right (hg : g.Sound) (sources : List ℕ) (hs : ∀ s ∈ sources, s < g.nodeCount)
    (k : ℕ) (hroom : k * msbfsLanes + sources.length ≤ 2 ^ 32) :
    ((((chunks msbfsLanes sources).zipIdx k).map fun b =>
        batchSends g maxHops b.2 b.1).flatten.flatten).Nodup ∧
      ∀ i w d, (i, w, d) ∈ (((chunks msbfsLanes sources).zipIdx k).map fun b =>
          batchSends g maxHops b.2 b.1).flatten.flatten ↔
        d ≤ maxHops ∧ ∃ j, i = k * msbfsLanes + j ∧ LaneLevel g sources j d w := by
  have hlanes : 0 < msbfsLanes := by decide
  induction sources using chunks_induction hlanes generalizing k with
  | nil =>
      refine ⟨by simp, fun i w d => ?_⟩
      simp [LaneLevel]
  | step sources hne ih =>
      have hpos := List.length_pos_of_ne_nil hne
      have hbase : k * msbfsLanes % 2 ^ 32 = k * msbfsLanes := Nat.mod_eq_of_lt (by omega)
      have hhead := multiSourceBfs_right hg (fun s hs' => hs s (List.mem_of_mem_take hs'))
        ((List.length_take_le ..) : (sources.take msbfsLanes).length ≤ msbfsLanes) maxHops
      have hfits : sources.length ≤ msbfsLanes ∨
          (k + 1) * msbfsLanes + (sources.drop msbfsLanes).length ≤ 2 ^ 32 := by
        rw [List.length_drop, Nat.add_mul]
        omega
      have htail : ((((chunks msbfsLanes (sources.drop msbfsLanes)).zipIdx (k + 1)).map fun b =>
            batchSends g maxHops b.2 b.1).flatten.flatten).Nodup ∧
          ∀ i w d, (i, w, d) ∈ (((chunks msbfsLanes (sources.drop msbfsLanes)).zipIdx (k + 1)).map
              fun b => batchSends g maxHops b.2 b.1).flatten.flatten ↔
            d ≤ maxHops ∧ ∃ j, i = (k + 1) * msbfsLanes + j ∧
              LaneLevel g (sources.drop msbfsLanes) j d w := by
        rcases hfits with hshort | hfits
        · rw [List.drop_eq_nil_of_le hshort]
          refine ⟨by simp, fun i w d => ?_⟩
          simp [LaneLevel]
        · exact ih (fun s hs' => hs s (List.mem_of_mem_drop hs')) (k + 1) hfits
      have hlow : ∀ j d w, LaneLevel g (sources.take msbfsLanes) j d w ↔
          j < msbfsLanes ∧ LaneLevel g sources j d w := by
        intro j d w
        rw [LaneLevel, LaneLevel, List.getElem?_take]
        split
        case isTrue hlt => simp [hlt]
        case isFalse hge => simp [hge]
      have hhigh : ∀ j d w, LaneLevel g (sources.drop msbfsLanes) j d w ↔
          LaneLevel g sources (msbfsLanes + j) d w := by
        intro j d w
        rw [LaneLevel, LaneLevel, List.getElem?_drop]
      have hcons : (((chunks msbfsLanes sources).zipIdx k).map fun b =>
          batchSends g maxHops b.2 b.1).flatten.flatten =
            ((multiSourceBfs g (sources.take msbfsLanes) maxHops).map fun e =>
              (k * msbfsLanes + e.1, e.2.1, e.2.2)) ++
            (((chunks msbfsLanes (sources.drop msbfsLanes)).zipIdx (k + 1)).map fun b =>
              batchSends g maxHops b.2 b.1).flatten.flatten := by
        rw [chunks_of_ne_nil hlanes hne, List.zipIdx_cons, List.map_cons, List.flatten_cons,
          List.flatten_append, batchSends, flatten_sends, hbase]
      have hmem : ∀ i w d, (i, w, d) ∈ ((multiSourceBfs g (sources.take msbfsLanes) maxHops).map
          fun e => (k * msbfsLanes + e.1, e.2.1, e.2.2)) ↔
            d ≤ maxHops ∧ ∃ j, i = k * msbfsLanes + j ∧ j < msbfsLanes ∧ LaneLevel g sources j d w := by
        intro i w d
        rw [List.mem_map]
        constructor
        · rintro ⟨⟨j, w', d'⟩, he, heq⟩
          rw [Prod.mk.injEq, Prod.mk.injEq] at heq
          obtain ⟨rfl, rfl, rfl⟩ := heq
          obtain ⟨hd, hlevel⟩ := (hhead.2 j w' d').1 he
          exact ⟨hd, j, rfl, (hlow j d' w').1 hlevel⟩
        · rintro ⟨hd, j, rfl, hlevel⟩
          exact ⟨(j, w, d), (hhead.2 j w d).2 ⟨hd, (hlow j d w).2 hlevel⟩, rfl⟩
      rw [hcons]
      constructor
      · rw [List.nodup_append]
        refine ⟨hhead.1.map ?_, htail.1, ?_⟩
        · rintro ⟨a, b, c⟩ ⟨a', b', c'⟩ heq
          simp only [Prod.mk.injEq, Nat.add_left_cancel_iff] at heq
          obtain ⟨rfl, rfl, rfl⟩ := heq
          rfl
        · rintro ⟨i, w, d⟩ ha b hb rfl
          obtain ⟨-, j, hj, hlt, -⟩ := (hmem i w d).1 ha
          obtain ⟨-, j', hj', -⟩ := (htail.2 i w d).1 hb
          rw [Nat.add_mul] at hj'
          omega
      · intro i w d
        rw [List.mem_append, hmem, htail.2]
        constructor
        · rintro (⟨hd, j, hi, -, hlevel⟩ | ⟨hd, j, hi, hlevel⟩)
          · exact ⟨hd, j, hi, hlevel⟩
          · refine ⟨hd, msbfsLanes + j, ?_, (hhigh j d w).1 hlevel⟩
            rw [hi, Nat.add_mul]
            omega
        · rintro ⟨hd, j, hi, hlevel⟩
          rcases Nat.lt_or_ge j msbfsLanes with hlt | hge
          · exact Or.inl ⟨hd, j, hi, hlt, hlevel⟩
          · obtain ⟨j', rfl⟩ := Nat.exists_eq_add_of_le hge
            refine Or.inr ⟨hd, j', ?_, (hhigh j' d w).2 hlevel⟩
            rw [hi, Nat.add_mul]
            omega

/-- Many sources are each searched, where their positions and twice the threads fit a word. -/
theorem multiSourceMorsels_right (hg : g.Sound) (hs : ∀ s ∈ sources, s < g.nodeCount)
    (hne : sources ≠ []) (hroom : sources.length ≤ 2 ^ 32) {threads detected : ℕ}
    (hpos : 0 < effectiveThreads detected threads)
    (hword : effectiveThreads detected threads * 2 < 2 ^ 64) (schedule : List ℕ) :
    ∃ events, multiSourceMorsels g sources maxHops threads detected schedule = .ok events ∧
      EventsRight g sources maxHops events := by
  obtain ⟨batches, hbatches⟩ : ∃ batches, batches = ((chunks msbfsLanes sources).zipIdx 0).map fun b =>
      batchSends g maxHops b.2 b.1 := ⟨_, rfl⟩
  obtain ⟨honce, hmem⟩ := @batches_right g maxHops hg sources hs 0 (by omega)
  rw [← hbatches] at honce hmem
  have hsome : 0 < batches.length := by
    rw [hbatches, chunks_of_ne_nil (by decide) hne]
    simp
  have hreceived := morsels_received batches (lt_min hpos hsome) schedule
  refine ⟨_, ?_, hreceived.nodup_iff.2 honce, fun i w d => ?_⟩
  · rw [multiSourceMorsels]
    simp only [word, if_pos hword, ← hbatches]
    rfl
  · rw [hreceived.mem_iff, hmem]
    apply and_congr_right
    intro _
    rw [Nat.zero_mul]
    constructor
    · rintro ⟨j, hi, hlevel⟩
      rw [hi, Nat.zero_add]
      exact hlevel
    · exact fun hlevel => ⟨i, (Nat.zero_add i).symm, hlevel⟩

theorem multiSourceMorsels_position (hg : g.Sound) (hs : ∀ s ∈ sources, s < g.nodeCount)
    (hne : sources ≠ []) {threads detected : ℕ} (hpos : 0 < effectiveThreads detected threads)
    {schedule : List ℕ} {events : List Event}
    (h : multiSourceMorsels g sources maxHops threads detected schedule = .ok events) :
    effectiveThreads detected threads * 2 < 2 ^ 64 ∧ ∀ e ∈ events, e.1 < 2 ^ 32 := by
  rw [multiSourceMorsels] at h
  by_cases hword : effectiveThreads detected threads * 2 < 2 ^ 64
  · refine ⟨hword, ?_⟩
    simp only [word, if_pos hword, ok_bind, Except.ok.injEq] at h
    have hsome : 0 < ((chunks msbfsLanes sources).zipIdx.map fun b =>
        batchSends g maxHops b.2 b.1).length := by
      rw [chunks_of_ne_nil (by decide) hne]
      simp
    have hreceived := morsels_received ((chunks msbfsLanes sources).zipIdx.map fun b =>
        batchSends g maxHops b.2 b.1) (lt_min hpos hsome) schedule
    rw [h] at hreceived
    intro e he
    rw [hreceived.mem_iff, List.mem_flatten] at he
    obtain ⟨part, hpart, he⟩ := he
    obtain ⟨sent, hsent, hin⟩ := List.mem_flatten.1 hpart
    obtain ⟨⟨batch, b⟩, hb, rfl⟩ := List.mem_map.1 hsent
    have hbatch : batch ∈ chunks msbfsLanes sources := List.fst_mem_of_mem_zipIdx hb
    have hlen : batch.length ≤ msbfsLanes := length_le_of_mem_chunks (by decide) hbatch
    have hright := multiSourceBfs_right hg
      (fun s hs' => hs s (mem_of_mem_chunks (by decide) hbatch hs')) hlen maxHops
    have he' : e ∈ (batchSends g maxHops b batch).flatten := List.mem_flatten.2 ⟨part, hin, he⟩
    rw [batchSends, flatten_sends, List.mem_map] at he'
    obtain ⟨⟨lane, w, d⟩, hlane, rfl⟩ := he'
    obtain ⟨-, s, hget, -⟩ := (hright.2 lane w d).1 hlane
    have hlt : lane < batch.length := (List.getElem?_eq_some_iff.1 hget).1
    rw [msbfsLanes] at hlen
    simp only [msbfsLanes]
    omega
  · simp only [word, if_neg hword] at h
    cases h

/-! ### Few sources -/

theorem reachedEvents_right (hg : g.Sound) (hlt : g.nodeCount < 2 ^ 32) {s : ℕ}
    (hs : s < g.nodeCount) {levels : List ℕ} (h : LevelsRight g [s] maxHops levels) {k : ℕ}
    (hk : k < 2 ^ 32) :
    (reachedEvents k levels).Nodup ∧ ∀ i w d, (i, w, d) ∈ reachedEvents k levels ↔
      i = k ∧ d ≤ maxHops ∧ Level g.Adj (· ∈ [s]) d w := by
  have hsources : ∀ u ∈ [s], u < g.nodeCount := by
    intro u hu
    rw [List.mem_singleton] at hu
    rw [hu]
    exact hs
  have hmem : ∀ i w d, (i, w, d) ∈ reachedEvents k levels ↔
      i = k ∧ levels[w]? = some d ∧ d ≠ unreached := by
    intro i w d
    rw [reachedEvents, List.mem_map, Nat.mod_eq_of_lt hk]
    constructor
    · rintro ⟨⟨d', w'⟩, hin, heq⟩
      rw [Prod.mk.injEq, Prod.mk.injEq] at heq
      obtain ⟨rfl, rfl, rfl⟩ := heq
      rw [List.mem_filter, List.mk_mem_zipIdx_iff_getElem?, decide_eq_true_eq] at hin
      exact ⟨rfl, hin⟩
    · rintro ⟨rfl, hin⟩
      refine ⟨(d, w), ?_, rfl⟩
      rw [List.mem_filter, List.mk_mem_zipIdx_iff_getElem?, decide_eq_true_eq]
      exact hin
  have hreached : ∀ d w, Level g.Adj (· ∈ [s]) d w → d ≠ unreached := by
    intro d w hlevel
    have hd : d < g.nodeCount := level_lt (fun d w => level_lt_nodeCount hg hsources) hlevel
    rw [unreached]
    omega
  constructor
  · rw [reachedEvents]
    refine List.Nodup.map ?_ (List.Nodup.filter _ (List.Nodup.of_map Prod.snd ?_))
    · rintro ⟨a, b⟩ ⟨a', b'⟩ heq
      rw [Prod.mk.injEq, Prod.mk.injEq] at heq
      obtain ⟨-, rfl, rfl⟩ := heq
      rfl
    · rw [List.zipIdx_map_snd]
      exact List.nodup_range'
  · intro i w d
    rw [hmem]
    apply and_congr_right
    intro _
    constructor
    · rintro ⟨hget, hne⟩
      have hw : w < g.nodeCount := by
        rw [← h.1]
        exact (List.getElem?_eq_some_iff.1 hget).1
      obtain ⟨hlevel, hnone⟩ := h.2 w hw
      by_cases hwithin : Within g.Adj (· ∈ [s]) maxHops w
      · obtain ⟨e, he, hlev⟩ := within_iff_level.1 hwithin
        have heq := hlevel e he hlev
        rw [hget, Option.some.injEq] at heq
        rw [heq]
        exact ⟨he, hlev⟩
      · have heq := hnone hwithin
        rw [hget, Option.some.injEq] at heq
        exact absurd heq hne
    · rintro ⟨hd, hlev⟩
      exact ⟨(h.2 w (level_lt_nodeCount hg hsources hlev)).1 d hd hlev, hreached d w hlev⟩

section

variable {rev : Option Csr} {threads detected : ℕ}

/-- Few sources are each searched, where every search has room. -/
theorem oneBfsPerSource_right (hg : g.Sound) (hlt : g.nodeCount < 2 ^ 32)
    (hrev : ∀ r, rev = some r → r.Reverses g) (schedules : ℕ → ℕ → List ℕ) (sources : List ℕ)
    (hs : ∀ s ∈ sources, s < g.nodeCount)
    (hfit : ∀ s ∈ sources, RoundsFit g rev [s] maxHops (effectiveThreads detected threads)) (k : ℕ)
    (hroom : k + sources.length ≤ 2 ^ 32) :
    ∃ events, oneBfsPerSource g rev maxHops threads detected schedules (sources.zipIdx k) = .ok events ∧
      events.Nodup ∧ ∀ i w d, (i, w, d) ∈ events ↔
        d ≤ maxHops ∧ ∃ j, i = k + j ∧ LaneLevel g sources j d w := by
  induction sources generalizing k with
  | nil =>
      refine ⟨[], rfl, List.nodup_nil, fun i w d => ?_⟩
      simp [LaneLevel]
  | cons s sources ih =>
      rw [List.length_cons] at hroom
      have hnode : s < g.nodeCount := hs s List.mem_cons_self
      have hsources : ∀ u ∈ [s], u < g.nodeCount := by
        intro u hu
        rw [List.mem_singleton] at hu
        rw [hu]
        exact hnode
      obtain ⟨levels, hlevels, hright⟩ := recursiveBfs_right hg hlt hsources hrev
        (hfit s List.mem_cons_self) (schedules k)
      obtain ⟨more, hmore, honce, hmem⟩ := ih (fun u hu => hs u (List.mem_cons_of_mem s hu))
        (fun u hu => hfit u (List.mem_cons_of_mem s hu)) (k + 1) (by omega)
      obtain ⟨honce', hmem'⟩ := reachedEvents_right hg hlt hnode hright (show k < 2 ^ 32 by omega)
      refine ⟨reachedEvents k levels ++ more, ?_, ?_, ?_⟩
      · rw [List.zipIdx_cons, oneBfsPerSource, hlevels, ok_bind, hmore]
        rfl
      · rw [List.nodup_append]
        refine ⟨honce', honce, ?_⟩
        rintro ⟨i, w, d⟩ ha b hb rfl
        obtain ⟨hi, -⟩ := (hmem' i w d).1 ha
        obtain ⟨-, j, hj, -⟩ := (hmem i w d).1 hb
        omega
      · intro i w d
        rw [List.mem_append, hmem', hmem]
        constructor
        · rintro (⟨rfl, hd, hlevel⟩ | ⟨hd, j, rfl, t, hget, hlevel⟩)
          · exact ⟨hd, 0, rfl, s, rfl, hlevel⟩
          · exact ⟨hd, j + 1, by omega, t, hget, hlevel⟩
        · rintro ⟨hd, j, rfl, t, hget, hlevel⟩
          cases j with
          | zero =>
              rw [List.getElem?_cons_zero, Option.some.injEq] at hget
              rw [hget]
              exact Or.inl ⟨rfl, hd, hlevel⟩
          | succ j =>
              rw [List.getElem?_cons_succ] at hget
              exact Or.inr ⟨hd, j, by omega, t, hget, hlevel⟩

theorem oneBfsPerSource_panics (hg : g.Sound) (hlt : g.nodeCount < 2 ^ 32)
    (hrev : ∀ r, rev = some r → r.Reverses g) (schedules : ℕ → ℕ → List ℕ) {sources : List ℕ}
    (hs : ∀ s ∈ sources, s < g.nodeCount) {s : ℕ} (hin : s ∈ sources)
    (hfit : ¬ RoundsFit g rev [s] maxHops (effectiveThreads detected threads)) (k : ℕ) :
    oneBfsPerSource g rev maxHops threads detected schedules (sources.zipIdx k) =
      .error .panicked := by
  have hsource : ∀ t, t < g.nodeCount → ∀ u ∈ [t], u < g.nodeCount := by
    intro t ht u hu
    rw [List.mem_singleton] at hu
    rw [hu]
    exact ht
  induction sources generalizing k with
  | nil => cases hin
  | cons t sources ih =>
      have ht : t < g.nodeCount := hs t List.mem_cons_self
      rw [List.zipIdx_cons, oneBfsPerSource]
      by_cases htfit : RoundsFit g rev [t] maxHops (effectiveThreads detected threads)
      · obtain ⟨levels, hlevels, -⟩ := recursiveBfs_right hg hlt (hsource t ht) hrev htfit
          (schedules k)
        have hrest : s ∈ sources := by
          rcases List.mem_cons.1 hin with rfl | hrest
          · exact absurd htfit hfit
          · exact hrest
        rw [hlevels, ok_bind, ih (fun u hu => hs u (List.mem_cons_of_mem t hu)) hrest (k + 1)]
        rfl
      · rw [recursiveBfs_panics hg hlt (hsource t ht) hrev htfit]
        rfl

end

/-! ### Every mode -/

/-- A graph, and a search of it that a caller may ask for. -/
structure Search where
  nodes : ℕ
  edges : List Edge
  sources : List ℕ
  withReversed : Bool
  maxHops : ℕ
  threads : ℕ
  detected : ℕ
  nodes_lt : nodes < 2 ^ 32
  edges_lt : ∀ e ∈ edges, e.1 < nodes ∧ e.2 < nodes
  sources_lt : ∀ s ∈ sources, s < nodes
  detected_pos : 0 < detected

namespace Search

variable (x : Search)

def graph : Csr := Csr.build x.nodes x.edges

/-- The reversed graph, where it is at hand. -/
def rev : Option Csr := if x.withReversed then some x.graph.reversed else none

/-- So many hops from a source, and no fewer, along the edges. -/
def FewestHops (sources : List ℕ) (d w : ℕ) : Prop :=
  Level (fun v w => (v, w) ∈ x.edges) (· ∈ sources) d w

/-- The fewest hops of a node within the bound, and `u32::MAX` where there are none. -/
def LevelsAgree (levels : List ℕ) : Prop :=
  levels.length = x.nodes ∧ ∀ w < x.nodes,
    (∀ d ≤ x.maxHops, x.FewestHops x.sources d w → levels[w]? = some d) ∧
      ((∀ d ≤ x.maxHops, ¬ x.FewestHops x.sources d w) → levels[w]? = some unreached)

/-- One event for each position of a source and each node within the bound, with the fewest
hops from that source. -/
def EventsAgree (events : List Event) : Prop :=
  events.Nodup ∧ ∀ i w d, (i, w, d) ∈ events ↔
    ∃ s, x.sources[i]? = some s ∧ d ≤ x.maxHops ∧ x.FewestHops [s] d w

/-- Every mode agrees with the hops along the edges, whatever the order of the threads. -/
def Agrees : Prop :=
  (∀ schedules, ∃ levels, recursiveBfs x.graph x.rev x.sources x.maxHops x.threads x.detected
      schedules = .ok levels ∧ x.LevelsAgree levels) ∧
    ∀ schedules, ∃ events, hybridBfs x.graph x.rev x.sources x.maxHops x.threads x.detected
      schedules = .ok events ∧ x.EventsAgree events

/-- A search from these sources has room: it has no dense rounds that are cut into ranges
whose ends leave a word of thirty-two bits. -/
def RoundsRoom (sources : List ℕ) : Prop :=
  x.withReversed = false ∨ RangesFit x.nodes (effectiveThreads x.detected x.threads) ∨
    ∀ d < x.maxHops, Set.ncard {w | x.FewestHops sources d w} ≤ x.nodes / denseFraction

/-- Every search has room, and where there are many sources so have their positions and
twice the threads. -/
def Room : Prop :=
  x.RoundsRoom x.sources ∧
    if msbfsMinSources ≤ x.sources.length then
      x.sources.length ≤ 2 ^ 32 ∧ effectiveThreads x.detected x.threads * 2 < 2 ^ 64
    else ∀ s ∈ x.sources, x.RoundsRoom [s]

theorem nodeCount_graph : x.graph.nodeCount = x.nodes := nodeCount_build x.nodes x.edges

theorem graph_sound : x.graph.Sound := Csr.build_sound x.edges_lt

theorem graph_adj : x.graph.Adj = fun v w => (v, w) ∈ x.edges := Csr.build_adj x.edges_lt

theorem rev_reverses : ∀ r, x.rev = some r → r.Reverses x.graph := by
  intro r hr
  rw [rev] at hr
  split at hr
  case isFalse => cases hr
  case isTrue =>
    rw [Option.some.injEq] at hr
    subst hr
    exact x.graph.reversed_reverses

theorem rev_eq_none : x.rev = none ↔ x.withReversed = false := by
  rw [rev]
  cases x.withReversed <;> simp

theorem roundsRoom_iff (sources : List ℕ) : x.RoundsRoom sources ↔
    RoundsFit x.graph x.rev sources x.maxHops (effectiveThreads x.detected x.threads) := by
  rw [RoundsRoom, RoundsFit, rev_eq_none, graph_adj, nodeCount_graph]
  rfl

theorem levelsAgree_iff (levels : List ℕ) :
    x.LevelsAgree levels ↔ LevelsRight x.graph x.sources x.maxHops levels := by
  rw [LevelsAgree, LevelsRight, graph_adj, nodeCount_graph]
  simp only [within_iff_level, not_exists, not_and]
  rfl

theorem eventsAgree_iff (events : List Event) :
    x.EventsAgree events ↔ EventsRight x.graph x.sources x.maxHops events := by
  rw [EventsAgree, EventsRight]
  simp only [LaneLevel, graph_adj]
  apply and_congr_right
  intro _
  refine forall_congr' fun i => forall_congr' fun w => forall_congr' fun d => iff_congr Iff.rfl ?_
  constructor
  · rintro ⟨s, hget, hd, hlevel⟩
    exact ⟨hd, s, hget, hlevel⟩
  · rintro ⟨hd, s, hget, hlevel⟩
    exact ⟨s, hget, hd, hlevel⟩

theorem threads_pos : 0 < effectiveThreads x.detected x.threads := by
  rw [effectiveThreads]
  split
  case isTrue h => exact h
  case isFalse => exact x.detected_pos

theorem threads_again :
    effectiveThreads x.detected (effectiveThreads x.detected x.threads) =
      effectiveThreads x.detected x.threads := by
  conv_lhs => rw [effectiveThreads, if_pos x.threads_pos]

/-- A position past the last word is never emitted, though its source reaches itself. -/
theorem positions_fit {events : List Event} (h : x.EventsAgree events)
    (hword : ∀ e ∈ events, e.1 < 2 ^ 32) : x.sources.length ≤ 2 ^ 32 := by
  by_contra hlong
  rw [not_le] at hlong
  have hget : x.sources[2 ^ 32]? = some (x.sources.get ⟨2 ^ 32, hlong⟩) :=
    List.getElem?_eq_getElem hlong
  have hself : x.FewestHops [x.sources.get ⟨2 ^ 32, hlong⟩] 0 (x.sources.get ⟨2 ^ 32, hlong⟩) :=
    level_zero.2 (List.mem_singleton.2 rfl)
  have hin := (h.2 _ _ _).2 ⟨_, hget, Nat.zero_le _, hself⟩
  exact absurd (hword _ hin) (Nat.lt_irrefl _)

/-- Every mode gives the fewest hops exactly where the search has room. -/
theorem agrees_iff_room : x.Agrees ↔ x.Room := by
  have hlt : x.graph.nodeCount < 2 ^ 32 := by
    rw [nodeCount_graph]
    exact x.nodes_lt
  have hs : ∀ s ∈ x.sources, s < x.graph.nodeCount := by
    rw [nodeCount_graph]
    exact x.sources_lt
  have hfirst : (∀ schedules, ∃ levels, recursiveBfs x.graph x.rev x.sources x.maxHops x.threads
      x.detected schedules = .ok levels ∧ x.LevelsAgree levels) ↔ x.RoundsRoom x.sources := by
    rw [roundsRoom_iff]
    simp only [levelsAgree_iff]
    constructor
    · intro h
      by_contra hfit
      obtain ⟨levels, hlevels, -⟩ := h fun _ => []
      rw [recursiveBfs_panics x.graph_sound hlt hs x.rev_reverses hfit] at hlevels
      cases hlevels
    · exact recursiveBfs_right x.graph_sound hlt hs x.rev_reverses
  rw [Agrees, Room, hfirst]
  apply and_congr_right
  intro _
  simp only [hybridBfs, multiSourcePays, decide_eq_true_eq]
  split
  case isTrue hmany =>
    have hne : x.sources ≠ [] := by
      rintro hnil
      rw [hnil] at hmany
      exact absurd hmany (by decide)
    have hpos : 0 < effectiveThreads x.detected (effectiveThreads x.detected x.threads) := by
      rw [threads_again]
      exact x.threads_pos
    constructor
    · intro h
      obtain ⟨events, hevents, hagree⟩ := h fun _ _ => []
      obtain ⟨hword, hposition⟩ := multiSourceMorsels_position x.graph_sound hs hne hpos hevents
      rw [threads_again] at hword
      exact ⟨x.positions_fit hagree hposition, hword⟩
    · rintro ⟨hroom, hword⟩ schedules
      rw [← threads_again] at hword
      have hsearch : ∃ events, multiSourceMorsels x.graph x.sources x.maxHops
          (effectiveThreads x.detected x.threads) x.detected (schedules 0 0) = .ok events ∧
            EventsRight x.graph x.sources x.maxHops events :=
        multiSourceMorsels_right x.graph_sound hs hne hroom hpos hword (schedules 0 0)
      obtain ⟨events, hevents, hright⟩ := hsearch
      exact ⟨events, hevents, (x.eventsAgree_iff events).2 hright⟩
  case isFalse hfew =>
    have hcount : 0 + x.sources.length ≤ 2 ^ 32 := by
      rw [msbfsMinSources, msbfsLanes] at hfew
      omega
    constructor
    · intro h s hin
      by_contra hfit
      obtain ⟨events, hevents, -⟩ := h fun _ _ => []
      rw [roundsRoom_iff, ← threads_again] at hfit
      rw [oneBfsPerSource_panics x.graph_sound hlt x.rev_reverses _ hs hin hfit] at hevents
      cases hevents
    · intro hfit schedules
      have hfit' : ∀ s ∈ x.sources, RoundsFit x.graph x.rev [s] x.maxHops
          (effectiveThreads x.detected (effectiveThreads x.detected x.threads)) := by
        intro s hin
        rw [threads_again, ← roundsRoom_iff]
        exact hfit s hin
      obtain ⟨events, hevents, honce, hmem⟩ := oneBfsPerSource_right x.graph_sound hlt
        x.rev_reverses schedules x.sources hs hfit' 0 hcount
      refine ⟨events, hevents, (x.eventsAgree_iff events).2 ⟨honce, fun i w d => ?_⟩⟩
      rw [hmem]
      apply and_congr_right
      intro _
      constructor
      · rintro ⟨j, hi, hlevel⟩
        rw [hi, Nat.zero_add]
        exact hlevel
      · exact fun hlevel => ⟨i, (Nat.zero_add i).symm, hlevel⟩

/-- One node, sixty-four times a source, and as many threads as a word counts from its upper
half on. -/
def manyThreads : Search where
  nodes := 1
  edges := []
  sources := List.replicate 64 0
  withReversed := false
  maxHops := 1
  threads := 2 ^ 63
  detected := 1
  nodes_lt := by decide
  edges_lt := by simp
  sources_lt := by simp
  detected_pos := by decide

/-- Twice the threads leave the word. -/
theorem not_every_agrees : ¬ manyThreads.Agrees := by
  rintro ⟨-, h⟩
  obtain ⟨events, hevents, -⟩ := h fun _ _ => []
  have hthreads : effectiveThreads manyThreads.detected manyThreads.threads = 2 ^ 63 := rfl
  have hagain : effectiveThreads manyThreads.detected (2 ^ 63) = 2 ^ 63 := rfl
  have hmany : multiSourcePays manyThreads.sources.length = true := rfl
  have hover : ¬ 2 ^ 63 * 2 < 2 ^ 64 := by decide
  rw [hybridBfs, if_pos hmany, hthreads, multiSourceMorsels, hagain] at hevents
  simp only [word, if_neg hover] at hevents
  cases hevents

end Search

end Zu.Query
