import Zu.Shared.Covered

/-!
# Visibility follows durability

`Core` is kept by every section of a session, and `Calls` says what a session relies on
between two of them: what it holds the side for, what it has captured, and which sync
it owes. Together they give that every state the readers are shown is on the platter,
in every run in which no log is emptied under a sync in flight.
-/

namespace Zu.Shared

open Wal (upd upd_self upd_of_ne Staged Behind)

namespace Sys

@[simp] theorem record_side (s : Sys) (c : ℕ) : (s.record c).side = s.side := by
  unfold record
  split_ifs <;> rfl

@[simp] theorem record_logs (s : Sys) (c : ℕ) : (s.record c).logs = s.logs := by
  unfold record
  split_ifs <;> rfl

@[simp] theorem record_opening (s : Sys) (c : ℕ) : (s.record c).opening = s.opening := by
  unfold record
  split_ifs <;> rfl

@[simp] theorem record_sealed (s : Sys) (c : ℕ) : (s.record c).sealed = s.sealed := by
  unfold record
  split_ifs <;> rfl

@[simp] theorem record_gens (s : Sys) (c : ℕ) : (s.record c).gens = s.gens := by
  unfold record
  split_ifs <;> rfl

@[simp] theorem record_next (s : Sys) (c : ℕ) : (s.record c).next = s.next := by
  unfold record
  split_ifs <;> rfl

@[simp] theorem record_published (s : Sys) (c : ℕ) :
    (s.record c).published = s.published := by
  unfold record
  split_ifs <;> rfl

@[simp] theorem record_sessions (s : Sys) (c : ℕ) : (s.record c).sessions = s.sessions := by
  unfold record
  split_ifs <;> rfl

@[simp] theorem record_holder (s : Sys) (c : ℕ) : (s.record c).holder = s.holder := by
  unfold record
  split_ifs <;> rfl

/-- A section that writes to no log and cuts none: the side may regroup what it holds
and take in changes a header on the disk has. -/
structure Regroups (s u : Sys) : Prop where
  logs : u.logs = s.logs
  opening : u.opening = s.opening
  gens : u.gens = s.gens
  next : s.next ≤ u.next
  sealed : ∀ c, s.sealed c = true → u.sealed c = true
  sealed_lt : ∀ c, u.sealed c = true → s.sealed c = true ∨ c < u.next
  gen : u.side.writer.map Writer.gen = s.side.writer.map Writer.gen
  log : u.side.log = s.side.log
  holds : ∀ c, u.side.Holds c → s.side.Holds c ∨ (c < u.next ∧ u.sealed c = true)
  logged : ∀ w, u.side.writer = some w → ∀ f ∈ u.side.log,
    f.change ∈ u.side.file.db.roots ∨ f.change ∈ w.overlay
  below : ∀ f ∈ u.side.log, f.epoch ≤ u.side.file.db.walSeq → f.change ∈ u.side.file.db.roots
  belowSaved : ∀ db, u.side.file.saved = some db → ∀ f ∈ u.side.log,
    f.epoch ≤ db.walSeq → f.change ∈ db.roots
  walSeq_le : ∀ w, u.side.writer = some w → u.side.file.db.walSeq ≤ w.epoch
  saved_le : ∀ db, u.side.file.saved = some db → db.walSeq ≤ u.side.file.db.walSeq
  shown : ∀ c ∈ u.published.changes, c ∈ s.published.changes ∨ s.OnPlatter c

theorem Regroups.onPlatter {s u : Sys} (hr : Regroups s u) {c : ℕ} (h : s.OnPlatter c) :
    u.OnPlatter c :=
  onPlatter_of_logs hr.opening hr.sealed (fun g d hd => by rw [hr.logs]; exact hd) h

theorem Regroups.writer {s u : Sys} (hr : Regroups s u) {w : Writer}
    (hw : u.side.writer = some w) : ∃ w', s.side.writer = some w' ∧ w'.gen = w.gen := by
  have hgen := hr.gen
  rw [hw] at hgen
  obtain ⟨w', hw', hg⟩ := Option.map_eq_some_iff.1 hgen.symm
  exact ⟨w', hw', hg⟩

theorem Regroups.writer' {s u : Sys} (hr : Regroups s u) {w : Writer}
    (hw : s.side.writer = some w) : ∃ w', u.side.writer = some w' ∧ w'.gen = w.gen := by
  have hgen := hr.gen
  rw [hw] at hgen
  obtain ⟨w', hw', hg⟩ := Option.map_eq_some_iff.1 hgen
  exact ⟨w', hw', hg⟩

theorem Regroups.tracked_iff {s u : Sys} (hr : Regroups s u) {c : ℕ} :
    u.Tracked c ↔ s.Tracked c := by
  constructor
  · rintro ⟨w, hw, ho, hs⟩
    obtain ⟨w', hw', hg⟩ := hr.writer hw
    exact ⟨w', hw', by rw [hg, ← hr.opening]; exact ho, by rw [hg, ← hr.logs]; exact hs⟩
  · rintro ⟨w, hw, ho, hs⟩
    obtain ⟨w', hw', hg⟩ := hr.writer' hw
    exact ⟨w', hw', by rw [hg, hr.opening]; exact ho, by rw [hg, hr.logs]; exact hs⟩

theorem Regroups.grows {s u : Sys} (hr : Regroups s u) : Grows s u where
  onPlatter _ := hr.onPlatter
  covers := by
    rintro g d c ⟨w, hw, hwg, hc, hd, hstaged, hbehind⟩
    obtain ⟨w', hw', hg⟩ := hr.writer' hw
    exact Or.inr ⟨w', hw', hg.trans hwg, by rw [hr.opening]; exact hc,
      by rw [hr.opening]; exact hd, by rw [hr.logs]; exact hstaged,
      by rw [hr.logs]; exact hbehind⟩

theorem Core.regroups {s u : Sys} (h : Core s) (hr : Regroups s u) : Core u where
  made c hc := by
    have hmade := h.made c (hr.next.trans hc)
    refine ⟨by rw [hr.opening]; exact hmade.1, Bool.eq_false_iff.2 fun hs => ?_⟩
    rcases hr.sealed_lt c hs with hs | hlt
    · rw [hmade.2] at hs
      cases hs
    · exact absurd hlt (Nat.not_lt.2 hc)
  opened c g ho := by
    rw [hr.gens]
    exact h.opened c g (hr.opening ▸ ho)
  gen_lt w hw := by
    obtain ⟨w', hw', hg⟩ := hr.writer hw
    rw [← hg, hr.gens]
    exact h.gen_lt w' hw'
  wal w hw := by
    obtain ⟨w', hw', hg⟩ := hr.writer hw
    rw [← hg, hr.logs]
    exact h.wal w' hw'
  cut w hw c ho hf := by
    obtain ⟨w', hw', hg⟩ := hr.writer hw
    rw [← hg, hr.opening] at ho
    rw [← hg, hr.logs] at hf
    exact hr.sealed c (h.cut w' hw' c ho hf)
  lt c hc := by
    rcases hr.holds c hc with hc | ⟨hlt, -⟩
    · exact (h.lt c hc).trans_le hr.next
    · exact hlt
  held c hc := by
    rcases hr.holds c hc with hc | ⟨-, hs⟩
    · rcases h.safe hc with hp | ht
      · exact Or.inl (hr.onPlatter hp)
      · exact Or.inr (Or.inl (hr.tracked_iff.2 ht))
    · exact Or.inl (Or.inl hs)
  logged := hr.logged
  tracked c hc := by
    rw [hr.log]
    exact (h.tracked c (hr.tracked_iff.1 hc)).imp_left (hr.sealed c)
  below := hr.below
  belowSaved := hr.belowSaved
  walSeq_le := hr.walSeq_le
  saved_le := hr.saved_le
  shown c hc := (hr.shown c hc).elim (fun hc => hr.onPlatter (h.shown c hc)) hr.onPlatter
  log_safe f hf := by
    rw [hr.log] at hf
    exact (h.log_safe f hf).imp hr.onPlatter hr.tracked_iff.2

/-! ### Writing -/

theorem step_stage {l l' : Wal.Sys} {c fin : ℕ} (h : Wal.step l (.stage c fin) = some l') :
    (l.pc c = .idle ∨ ∃ n ok, l.pc c = .returned n ok) ∧ l.marks.staged < fin ∧
      l' = { marks := l.marks.stagedTo fin, pc := upd l.pc c (.holds fin),
             ghost := l.ghost.stage c } := by
  simp only [Wal.step] at h
  split at h <;> (try split at h) <;> cases h
  · rename_i hpc hlen
    exact ⟨Or.inl hpc, hlen, rfl⟩
  · rename_i n ok hpc hlen
    exact ⟨Or.inr ⟨n, ok, hpc⟩, hlen, rfl⟩

/-- What logging a change does to the state. -/
theorem logFrames_eq {s u : Sys} {w : Writer} {fin : ℕ} (hu : s.logFrames w fin = some u) :
    ∃ l, Wal.step (s.logs w.gen) (.stage s.next fin) = some l ∧
      u.logs = upd s.logs w.gen l ∧ u.opening = upd s.opening s.next (some w.gen) ∧
      u.next = s.next + 1 ∧ u.gens = s.gens ∧ u.sealed = s.sealed ∧
      u.published = s.published ∧ u.sessions = s.sessions ∧ u.holder = s.holder ∧
      u.side =
        { file := s.side.file.keepSavepoint
          writer := some
            { w with epoch := w.epoch + 1, overlay := w.overlay ++ [s.next] }
          log := s.side.log ++
            [({ change := s.next, epoch := w.epoch + 1, fin } : Frame)] } := by
  obtain ⟨l, hl, rfl⟩ := Option.map_eq_some_iff.1 hu
  exact ⟨l, hl, by simp, by simp, by simp, by simp, by simp, by simp, by simp, by simp, by simp⟩

/-- The frames of a change go to the log: everything the log holds is behind it. -/
theorem Core.logFrames {s u : Sys} (h : Core s) {w : Writer} {fin : ℕ}
    (hw : s.side.writer = some w) (hu : s.logFrames w fin = some u) :
    Core u ∧ Grows s u ∧ (∀ c, u.Tracked c → u.Covers w.gen s.next c) ∧
      (∀ c, u.side.Holds c → s.side.Holds c ∨ c = s.next) ∧ u.Tracked s.next := by
  obtain ⟨l, hl, hlogs, hopen, hnext, hgens, hsealed, hpub, -, -, hside⟩ := logFrames_eq hu
  obtain ⟨hfree, hfin, hl⟩ := step_stage hl
  have hwriter : u.side.writer =
      some { w with epoch := w.epoch + 1, overlay := w.overlay ++ [s.next] } := by rw [hside]
  have hlog : u.side.log = s.side.log ++
      [({ change := s.next, epoch := w.epoch + 1, fin } : Frame)] := by rw [hside]
  have hdb : u.side.file.db = s.side.file.db := by rw [hside]; simp
  have hsaved : u.side.file.saved = s.side.file.saved := by rw [hside]; simp
  have hlw : u.logs w.gen = l := by rw [hlogs, upd_self]
  have hne : ∀ {c}, s.opening c ≠ none → c ≠ s.next := by
    rintro c hc rfl
    exact hc (h.made s.next le_rfl).1
  have hopenOf : ∀ {c}, c ≠ s.next → u.opening c = s.opening c := fun hc => by
    rw [hopen, upd_of_ne hc]
  have hpc : ∀ {c}, c ≠ s.next → l.pc c = (s.logs w.gen).pc c := fun hc => by
    rw [hl]
    exact upd_of_ne hc
  have hcov : ∀ {c}, c ≠ s.next →
      l.ghost.covered c = (s.logs w.gen).ghost.covered c := fun hc => by
    rw [hl]
    exact upd_of_ne hc
  have hstaged : ∀ {c}, c ≠ s.next → (Staged l c ↔ Staged (s.logs w.gen) c) := fun hc => by
    rw [Staged, Staged, hpc hc]
  have hnew : Staged l s.next := ⟨fin, Nat.zero_lt_of_lt hfin, by rw [hl]; simp [Wal.Pc.need?]⟩
  have hplatter : ∀ c, s.OnPlatter c → u.OnPlatter c := by
    rintro c (hc | ⟨g, ho, hc⟩)
    · exact Or.inl (by rw [hsealed]; exact hc)
    · have hcn : c ≠ s.next := hne (by rw [ho]; exact Option.some_ne_none g)
      refine Or.inr ⟨g, by rw [hopenOf hcn]; exact ho, ?_⟩
      by_cases hg : g = w.gen
      · rw [hg, hlw, hcov hcn, ← hg]
        exact hc
      · rw [hlogs, upd_of_ne hg]
        exact hc
  have htracks : ∀ c, s.Tracked c → u.Tracked c := by
    rintro c ⟨w', hw', ho, hs⟩
    rw [hw] at hw'
    cases hw'
    have hcn : c ≠ s.next := hne (by rw [ho]; exact Option.some_ne_none _)
    exact ⟨_, hwriter, by rw [hopenOf hcn]; exact ho, by rw [hlw]; exact (hstaged hcn).2 hs⟩
  have htrackedNew : u.Tracked s.next :=
    ⟨_, hwriter, by rw [hopen]; exact upd_self _ _ _, by rw [hlw]; exact hnew⟩
  have hback : ∀ c, u.Tracked c → c = s.next ∨ s.Tracked c := by
    rintro c ⟨w', hw', ho, hs⟩
    rw [hwriter] at hw'
    cases hw'
    by_cases hcn : c = s.next
    · exact Or.inl hcn
    · refine Or.inr ⟨w, hw, by rw [← hopenOf hcn]; exact ho, ?_⟩
      rw [← hstaged hcn, ← hlw]
      exact hs
  have hholds : ∀ c, u.side.Holds c → s.side.Holds c ∨ c = s.next := by
    rintro c (hc | ⟨w', hw', hc⟩ | ⟨db, hdb', hc⟩ | ⟨f, hf, hc⟩)
    · exact Or.inl (Or.inl (hdb ▸ hc))
    · rw [hwriter] at hw'
      cases hw'
      rcases hc with hc | hc
      · rcases List.mem_append.1 hc with hc | hc
        · exact Or.inl (Or.inr (Or.inl ⟨w, hw, Or.inl hc⟩))
        · exact Or.inr (List.mem_singleton.1 hc)
      · exact Or.inl (Or.inr (Or.inl ⟨w, hw, Or.inr hc⟩))
    · exact Or.inl (Or.inr (Or.inr (Or.inl ⟨db, hsaved ▸ hdb', hc⟩)))
    · rw [hlog] at hf
      rcases List.mem_append.1 hf with hf | hf
      · exact Or.inl (Or.inr (Or.inr (Or.inr ⟨f, hf, hc⟩)))
      · rw [List.mem_singleton.1 hf] at hc
        exact Or.inr hc.symm
  have hframes : ∀ f ∈ u.side.log,
      f ∈ s.side.log ∨ (f.change = s.next ∧ f.epoch = w.epoch + 1) := by
    intro f hf
    rw [hlog] at hf
    rcases List.mem_append.1 hf with hf | hf
    · exact Or.inl hf
    · rw [List.mem_singleton.1 hf]
      exact Or.inr ⟨rfl, rfl⟩
  have hcovers : ∀ g d c, s.Covers g d c → u.Due g d c := by
    rintro g d c ⟨w', hw', rfl, hc, hd, hs, hb⟩
    rw [hw] at hw'
    cases hw'
    have hcn : c ≠ s.next := hne (by rw [hc]; exact Option.some_ne_none _)
    have hdn : d ≠ s.next := hne (by rw [hd]; exact Option.some_ne_none _)
    refine Or.inr ⟨_, hwriter, rfl, by rw [hopenOf hcn]; exact hc,
      by rw [hopenOf hdn]; exact hd, by rw [hlw]; exact (hstaged hcn).2 hs, ?_⟩
    rw [hlw, hl]
    exact hb.stage hcn hdn _ _
  have hdue : ∀ c, u.Tracked c → u.Covers w.gen s.next c := by
    intro c hc
    obtain ⟨w', hw', ho, hs⟩ := hc
    rw [hwriter] at hw'
    cases hw'
    refine ⟨_, hwriter, rfl, ho, by rw [hopen]; exact upd_self _ _ _, hs, ?_⟩
    rw [hlw, hl]
    exact Wal.behind_stage _ _ _ _ _
  refine ⟨⟨?_, ?_⟩, ⟨hplatter, hcovers⟩, hdue, hholds, htrackedNew⟩
  · exact
    { made := fun c hc => by
        rw [hnext] at hc
        have hmade := h.made c (Nat.le_of_succ_le hc)
        exact ⟨by rw [hopenOf (Nat.ne_of_gt hc)]; exact hmade.1, by rw [hsealed]; exact hmade.2⟩
      opened := fun c g ho => by
        rw [hgens]
        by_cases hcn : c = s.next
        · rw [hopen, hcn, upd_self] at ho
          cases ho
          exact h.gen_lt w hw
        · exact h.opened c g (hopenOf hcn ▸ ho)
      gen_lt := fun w' hw' => by
        rw [hwriter] at hw'
        cases hw'
        rw [hgens]
        exact h.gen_lt w hw
      wal := fun w' hw' => by
        rw [hwriter] at hw'
        cases hw'
        rw [hlw, hl]
        exact (h.wal w hw).stage hfree hfin
      cut := fun w' hw' c ho hf => by
        rw [hwriter] at hw'
        cases hw'
        change (u.logs w.gen).ghost.folded c = true at hf
        rw [hlw, hl] at hf
        by_cases hcn : c = s.next
        · simp [Wal.Ghost.stage, hcn] at hf
        · simp only [Wal.Ghost.stage, upd_of_ne hcn] at hf
          rw [hsealed]
          exact h.cut w hw c (hopenOf hcn ▸ ho) hf
      lt := fun c hc => by
        rw [hnext]
        rcases hholds c hc with hc | rfl
        · exact (h.lt c hc).trans (Nat.lt_succ_self _)
        · exact Nat.lt_succ_self _
      held := fun c hc => by
        rcases hholds c hc with hc | rfl
        · rcases h.safe hc with hp | ht
          · exact Or.inl (hplatter c hp)
          · exact Or.inr (Or.inl (htracks c ht))
        · exact Or.inr (Or.inl htrackedNew)
      logged := fun w' hw' f hf => by
        rw [hwriter] at hw'
        cases hw'
        rw [hdb]
        rcases hframes f hf with hf | ⟨hf, -⟩
        · exact (h.logged w hw f hf).imp_right (List.mem_append_left _)
        · exact Or.inr (List.mem_append_right _ (by rw [hf]; exact List.mem_singleton_self _))
      tracked := fun c hc => by
        rw [hsealed]
        rcases hback c hc with rfl | hc
        · exact Or.inr ⟨_, by rw [hlog]; exact List.mem_append_right _ (List.mem_singleton_self _),
            rfl⟩
        · refine (h.tracked c hc).imp_right fun hlogged => ?_
          obtain ⟨f, hf, hfc⟩ := hlogged
          refine ⟨f, ?_, hfc⟩
          rw [hlog]
          exact List.mem_append_left _ hf
      below := fun f hf he => by
        rw [hdb] at he ⊢
        rcases hframes f hf with hf | ⟨-, hf⟩
        · exact h.below f hf he
        · have hle := h.walSeq_le w hw
          omega
      belowSaved := fun db hdb' f hf he => by
        rw [hsaved] at hdb'
        rcases hframes f hf with hf | ⟨-, hf⟩
        · exact h.belowSaved db hdb' f hf he
        · have hle := (h.saved_le db hdb').trans (h.walSeq_le w hw)
          omega
      walSeq_le := fun w' hw' => by
        rw [hwriter] at hw'
        cases hw'
        rw [hdb]
        exact (h.walSeq_le w hw).trans (Nat.le_succ _)
      saved_le := fun db hdb' => by
        rw [hdb]
        exact h.saved_le db (hsaved ▸ hdb')
      shown := fun c hc => hplatter c (h.shown c (hpub ▸ hc)) }
  · intro f hf
    rcases hframes f hf with hf | ⟨hf, -⟩
    · exact (h.log_safe f hf).imp (hplatter _) (htracks _)
    · rw [hf]
      exact Or.inr htrackedNew

/-- A section that leaves the side, the logs and the headers alone. -/
theorem Core.regroups_same {s u : Sys} (h : Core s) (hside : u.side = s.side)
    (hlogs : u.logs = s.logs) (hopen : u.opening = s.opening) (hgens : u.gens = s.gens)
    (hnext : u.next = s.next) (hsealed : u.sealed = s.sealed)
    (hshown : ∀ c ∈ u.published.changes, c ∈ s.published.changes ∨ s.OnPlatter c) :
    Regroups s u where
  logs := hlogs
  opening := hopen
  gens := hgens
  next := hnext.ge
  sealed _ hc := by rw [hsealed]; exact hc
  sealed_lt _ hc := Or.inl (hsealed ▸ hc)
  gen := by rw [hside]
  log := by rw [hside]
  holds _ hc := Or.inl (hside ▸ hc)
  logged := by rw [hside]; exact h.logged
  below := by rw [hside]; exact h.below
  belowSaved := by rw [hside]; exact h.belowSaved
  walSeq_le := by rw [hside]; exact h.walSeq_le
  saved_le := by rw [hside]; exact h.saved_le
  shown := hshown

/-- The file marks the savepoint and the readers are handed what the log holds. -/
theorem Core.regroups_stagePatch {s : Sys} (h : Core s) {w : Writer} {c : ℕ}
    (hw : s.side.writer = some w) (hc : c ∈ w.overlay) : Regroups s (s.stagePatch w c) where
  logs := rfl
  opening := rfl
  gens := rfl
  next := le_rfl
  sealed _ := id
  sealed_lt _ := Or.inl
  gen := by rw [hw]; rfl
  log := rfl
  holds := by
    rintro d (hd | ⟨w', hw', hd⟩ | ⟨db, hdb, hd⟩ | hd)
    · exact Or.inl (Or.inl hd)
    · cases hw'
      rcases hd with hd | hd
      · exact Or.inl (Or.inr (Or.inl ⟨w, hw, Or.inl hd⟩))
      · rcases List.mem_append.1 hd with hd | hd
        · exact Or.inl (Or.inr (Or.inl ⟨w, hw, Or.inr hd⟩))
        · rw [List.mem_singleton.1 hd]
          exact Or.inl (Or.inr (Or.inl ⟨w, hw, Or.inl hc⟩))
    · exact Or.inl (Or.inr (Or.inr (Or.inl ⟨db, by simpa [stagePatch] using hdb, hd⟩)))
    · exact Or.inl (Or.inr (Or.inr (Or.inr hd)))
  logged w' hw' := by
    cases hw'
    exact h.logged w hw
  below := h.below
  belowSaved db hdb := h.belowSaved db (by simpa [stagePatch] using hdb)
  walSeq_le w' hw' := by
    cases hw'
    exact h.walSeq_le w hw
  saved_le db hdb := h.saved_le db (by simpa [stagePatch] using hdb)
  shown _ := Or.inl

/-- A fold that does not publish moves what the writer holds under the roots. -/
theorem Core.regroups_stagedFold {s : Sys} (h : Core s) {w : Writer}
    (hw : s.side.writer = some w) : Regroups s (s.stagedFold w) where
  logs := rfl
  opening := rfl
  gens := rfl
  next := le_rfl
  sealed _ := id
  sealed_lt _ := Or.inl
  gen := by rw [hw]; rfl
  log := rfl
  holds := by
    rintro d (hd | ⟨w', hw', hd⟩ | ⟨db, hdb, hd⟩ | hd)
    · rcases List.mem_append.1 hd with hd | hd
      · exact Or.inl (Or.inl hd)
      · exact Or.inl (Or.inr (Or.inl ⟨w, hw, Or.inl hd⟩))
    · cases hw'
      simp at hd
    · rw [Sys.stagedFold, WriteSide.stagedFold, File.stageFold_saved] at hdb
      exact Or.inl (Or.inr (Or.inr (Or.inl ⟨db, hdb, hd⟩)))
    · exact Or.inl (Or.inr (Or.inr (Or.inr hd)))
  logged _ _ f hf := Or.inl (List.mem_append.2 (h.logged w hw f hf))
  below f hf _ := List.mem_append.2 (h.logged w hw f hf)
  belowSaved db hdb := by
    rw [Sys.stagedFold, WriteSide.stagedFold, File.stageFold_saved] at hdb
    exact h.belowSaved db hdb
  walSeq_le w' hw' := by
    cases hw'
    exact le_rfl
  saved_le db hdb := by
    rw [Sys.stagedFold, WriteSide.stagedFold, File.stageFold_saved] at hdb
    exact (h.saved_le db hdb).trans (h.walSeq_le w hw)
  shown _ := Or.inl

theorem Core.regroups_store {s : Sys} (h : Core s) : Regroups s s.store := by
  have hside : s.store.side.writer = s.side.writer ∧ s.store.side.log = s.side.log ∧
      s.store.side.file.db.roots = s.side.file.db.roots ++ [s.next] ∧
      s.store.side.file.db.walSeq = s.side.file.db.walSeq ∧
      s.store.side.file.saved = s.side.file.saved := by
    refine ⟨by simp [store, sealRoots], by simp [store, sealRoots], by simp [store, sealRoots],
      by simp [store, sealRoots], ?_⟩
    simp only [store, record_side, sealRoots, File.checkpoint_saved]
    rfl
  obtain ⟨hwriter, hlog, hroots, hseq, hsaved⟩ := hside
  have hsealed : ∀ c, s.store.sealed c = true ↔
      s.sealed c = true ∨ c ∈ s.side.file.db.roots ++ [s.next] := by
    intro c
    simp [store, sealRoots]
  have hnext : s.store.next = s.next + 1 := by simp [store, sealRoots]
  exact
    { logs := by simp [store, sealRoots]
      opening := by simp [store, sealRoots]
      gens := by simp [store, sealRoots]
      next := by rw [hnext]; exact Nat.le_succ _
      sealed := fun c hc => (hsealed c).2 (Or.inl hc)
      sealed_lt := fun c hc => by
        rw [hnext]
        rcases (hsealed c).1 hc with hc | hc
        · exact Or.inl hc
        · rcases List.mem_append.1 hc with hc | hc
          · exact Or.inr ((h.lt c (Or.inl hc)).trans (Nat.lt_succ_self _))
          · rw [List.mem_singleton.1 hc]
            exact Or.inr (Nat.lt_succ_self _)
      gen := by rw [hwriter]
      log := hlog
      holds := by
        rintro c (hc | ⟨w, hw, hc⟩ | ⟨db, hdb, hc⟩ | hc)
        · rw [hroots] at hc
          rcases List.mem_append.1 hc with hc' | hc'
          · exact Or.inl (Or.inl hc')
          · refine Or.inr ⟨?_, (hsealed c).2 (Or.inr hc)⟩
            rw [hnext, List.mem_singleton.1 hc']
            exact Nat.lt_succ_self _
        · exact Or.inl (Or.inr (Or.inl ⟨w, hwriter ▸ hw, hc⟩))
        · exact Or.inl (Or.inr (Or.inr (Or.inl ⟨db, hsaved ▸ hdb, hc⟩)))
        · exact Or.inl (Or.inr (Or.inr (Or.inr (hlog ▸ hc))))
      logged := fun w hw f hf => by
        rw [hroots]
        exact (h.logged w (hwriter ▸ hw) f (hlog ▸ hf)).imp_left (List.mem_append_left _)
      below := fun f hf he => by
        rw [hroots]
        exact List.mem_append_left _ (h.below f (hlog ▸ hf) (hseq ▸ he))
      belowSaved := fun db hdb f hf => h.belowSaved db (hsaved ▸ hdb) f (hlog ▸ hf)
      walSeq_le := fun w hw => by
        rw [hseq]
        exact h.walSeq_le w (hwriter ▸ hw)
      saved_le := fun db hdb => by
        rw [hseq]
        exact h.saved_le db (hsaved ▸ hdb)
      shown := fun c hc => by
        refine Or.inl ?_
        simpa [store, sealRoots] using hc }

/-- A savepoint begins: it keeps the roots the file is on. -/
theorem Core.regroups_hold {s u : Sys} (h : Core s) (across : Bool) (floor : ℕ)
    (hu : { s with side :=
      { s.side with file := s.side.file.beginSavepoint across floor } } = u) :
    Regroups s u := by
  subst hu
  exact
    { logs := rfl
      opening := rfl
      gens := rfl
      next := le_rfl
      sealed := fun _ => id
      sealed_lt := fun _ => Or.inl
      gen := rfl
      log := rfl
      holds := by
        rintro c (hc | hc | ⟨db, hdb, hc⟩ | hc)
        · exact Or.inl (Or.inl hc)
        · exact Or.inl (Or.inr (Or.inl hc))
        · cases hdb
          exact Or.inl (Or.inl hc)
        · exact Or.inl (Or.inr (Or.inr (Or.inr hc)))
      logged := h.logged
      below := h.below
      belowSaved := fun db hdb => by
        cases hdb
        exact h.below
      walSeq_le := h.walSeq_le
      saved_le := fun db hdb => by
        cases hdb
        exact le_rfl
      shown := fun _ => Or.inl }

theorem releaseSavepoint_db (f : File) (ended : Bool) :
    (f.releaseSavepoint ended).db = f.db ∧ (f.releaseSavepoint ended).saved = none := by
  cases hs : f.savepoint <;> simp [File.releaseSavepoint, File.saved, hs]

/-- A transaction ends by keeping what it did. -/
theorem Core.regroups_release {s : Sys} (h : Core s) (ended : Bool) :
    Regroups s (s.release ended) := by
  obtain ⟨hdb, hsaved⟩ := releaseSavepoint_db s.side.file ended
  exact
    { logs := rfl
      opening := rfl
      gens := rfl
      next := le_rfl
      sealed := fun _ => id
      sealed_lt := fun _ => Or.inl
      gen := rfl
      log := rfl
      holds := by
        rintro c (hc | hc | ⟨db, hdb', -⟩ | hc)
        · exact Or.inl (Or.inl (hdb ▸ hc))
        · exact Or.inl (Or.inr (Or.inl hc))
        · rw [release, hsaved] at hdb'
          cases hdb'
        · exact Or.inl (Or.inr (Or.inr (Or.inr hc)))
      logged := by
        rw [release, hdb]
        exact h.logged
      below := by
        rw [release, hdb]
        exact h.below
      belowSaved := fun db hdb' => by
        rw [release, hsaved] at hdb'
        cases hdb'
      walSeq_le := by
        rw [release, hdb]
        exact h.walSeq_le
      saved_le := fun db hdb' => by
        rw [release, hsaved] at hdb'
        cases hdb'
      shown := fun _ => Or.inl }

theorem fold_frame (s : Sys) (w : Writer) :
    (s.fold w).sessions = s.sessions ∧ (s.fold w).holder = s.holder ∧
      (s.fold w).next = s.next := by
  rw [Sys.fold]
  split_ifs <;> exact ⟨rfl, rfl, rfl⟩

theorem openWriter_frame (s : Sys) :
    s.openWriter.sessions = s.sessions ∧ s.openWriter.holder = s.holder ∧
      s.openWriter.next = s.next :=
  fold_frame _ _

/-- No thread waits on a log that has just been opened. -/
theorem openWriter_idle (s : Sys) {w : Writer} (hw : s.openWriter.side.writer = some w)
    (l : ℕ) : (s.openWriter.logs w.gen).pc l = .idle := by
  rw [openWriter, Sys.fold] at hw ⊢
  split_ifs at hw ⊢ <;> cases hw
  · simp [WriteSide.recovered, Wal.Sys.new]
  · simp [cutLog, sealRoots, WriteSide.recovered, Wal.Sys.new]

theorem Core.withWriter {s : Sys} (h : Core s) :
    Core s.withWriter ∧ Grows s s.withWriter ∧
      (∀ c ∈ s.withWriter.side.changes, c ∈ s.side.changes ∨ s.withWriter.OnPlatter c) ∧
      (s.CutsBehind → s.withWriter.CutsBehind) := by
  rw [Sys.withWriter]
  split_ifs with hw
  · exact ⟨h, Grows.refl s, fun c hc => Or.inl hc, id⟩
  · have hnone : s.side.writer = none := by simpa using hw
    obtain ⟨hcore, hmono, -, hheld⟩ := h.openWriter hnone
    refine ⟨hcore, ⟨hmono, ?_⟩,
      fun c hc => Or.inr (hheld c (WriteSide.holds_of_changes hc)), ?_⟩
    · rintro g d c ⟨w, hw', -⟩
      rw [hnone] at hw'
      cases hw'
    · intro _ w hw' l target hl
      rw [openWriter_idle s hw' l] at hl
      cases hl

theorem withWriter_frame (s : Sys) :
    s.withWriter.sessions = s.sessions ∧ s.withWriter.holder = s.holder ∧
      s.withWriter.next = s.next := by
  rw [withWriter]
  split_ifs
  · exact ⟨rfl, rfl, rfl⟩
  · exact openWriter_frame s

theorem CutsBehind.logFrames {s u : Sys} (h : s.CutsBehind) {w : Writer} {fin : ℕ}
    (hw : s.side.writer = some w) (hu : s.logFrames w fin = some u) : u.CutsBehind := by
  obtain ⟨l, hl, hlogs, -, -, -, -, -, -, -, hside⟩ := logFrames_eq hu
  obtain ⟨-, -, rfl⟩ := step_stage hl
  intro w' hw' t target ht
  rw [hside] at hw'
  cases hw'
  change ((u.logs w.gen).pc t).inFlight? = some target at ht
  rw [hlogs, upd_self] at ht
  by_cases htn : t = s.next
  · simp [htn, Wal.Pc.inFlight?] at ht
  · simp only [upd_of_ne htn] at ht
    exact h w hw t target ht

/-- What `write` leaves session `i` owing covers what the side then shows. -/
theorem Core.write {s u : Sys} (h : Core s) {i : ℕ} {out : Outcome} {fin : ℕ}
    (hcut : out = .sealed → s.CutsBehind) (hu : s.write i out fin = some u)
    (howes : ∀ g d, (s.sessions i).owed = some (g, d) → ∀ c ∈ s.side.changes, s.Due g d c) :
    Core u ∧ Grows s u ∧ u.holder = s.holder ∧
      (∀ j, j ≠ i → u.sessions j = s.sessions j) ∧
      (∃ o, u.sessions i = { s.sessions i with owed := o }) ∧
      ∀ g d, (u.sessions i).owed = some (g, d) → ∀ c ∈ u.side.changes, u.Due g d c := by
  obtain ⟨ht, hst, hchanges, hcuts⟩ := h.withWriter
  obtain ⟨hsess, hholder, hnext⟩ := withWriter_frame s
  simp only [Sys.write] at hu
  generalize s.withWriter = t at *
  have howes' : ∀ g d, (t.sessions i).owed = some (g, d) →
      ∀ c ∈ t.side.changes, t.Due g d c := by
    intro g d ho c hc
    rw [hsess] at ho
    rcases hchanges c hc with hc | hc
    · exact hst.due (howes g d ho c hc)
    · exact Or.inl hc
  by_cases hraised : ∃ ok, out = .raised ok
  · obtain ⟨ok, rfl⟩ := hraised
    cases hu
    exact ⟨ht, hst, hholder, fun j _ => by rw [hsess], ⟨(s.sessions i).owed, by rw [hsess]⟩,
      howes'⟩
  · have hu' : (t.side.writer.bind fun writer => (t.logFrames writer fin).bind fun s' =>
        s'.side.writer.map fun writer' => s'.carry i writer' t.next out) = some u := by
      cases out with
      | raised ok => exact absurd ⟨ok, rfl⟩ hraised
      | deferred => exact hu
      | folded => exact hu
      | «sealed» => exact hu
      | unfolded => exact hu
    obtain ⟨w, hw, hu'⟩ := Option.bind_eq_some_iff.1 hu'
    obtain ⟨t', ht', hu'⟩ := Option.bind_eq_some_iff.1 hu'
    obtain ⟨w', hw', rfl⟩ := Option.map_eq_some_iff.1 hu'
    obtain ⟨hcore, hgrows, hdue, hholds, htracked⟩ := ht.logFrames hw ht'
    obtain ⟨l, -, -, -, hnext', -, -, -, hsess', hholder', hside⟩ := logFrames_eq ht'
    have hw'' : w' = { w with epoch := w.epoch + 1, overlay := w.overlay ++ [t.next] } := by
      rw [hside] at hw'
      exact (Option.some.inj hw').symm
    have hsame : t'.sessions = s.sessions := hsess'.trans hsess
    -- the debt covers everything the log holds
    have howed : ∀ v : Sys, Regroups t' v → ∀ c ∈ v.side.changes, v.Due w.gen t.next c := by
      intro v hr c hc
      rcases (hcore.regroups hr).safe (WriteSide.holds_of_changes hc) with hp | hc
      · exact Or.inl hp
      · exact hr.grows.covers _ _ _ (hdue c (hr.tracked_iff.1 hc))
    have hquiet : ∀ v : Sys, Regroups t' v → v.holder = t'.holder → v.sessions = t'.sessions →
        Core (v.owes i w.gen t.next) ∧ Grows s (v.owes i w.gen t.next) ∧
          (v.owes i w.gen t.next).holder = s.holder ∧
          (∀ j, j ≠ i → (v.owes i w.gen t.next).sessions j = s.sessions j) ∧
          (∃ o, (v.owes i w.gen t.next).sessions i = { s.sessions i with owed := o }) ∧
          ∀ g d, ((v.owes i w.gen t.next).sessions i).owed = some (g, d) →
            ∀ c ∈ (v.owes i w.gen t.next).side.changes, (v.owes i w.gen t.next).Due g d c := by
      intro v hr hvh hvs
      have hv := hcore.regroups hr
      have hon : Regroups v (v.owes i w.gen t.next) :=
        hv.regroups_same rfl rfl rfl rfl rfl rfl fun _ => Or.inl
      refine ⟨hv.regroups hon, ((hst.trans hgrows).trans hr.grows).trans hon.grows,
        hvh.trans (hholder'.trans hholder), fun j hj => ?_, ⟨some (w.gen, t.next), ?_⟩, ?_⟩
      · rw [← hsame, ← hvs]
        exact upd_of_ne hj
      · rw [← hsame, ← hvs]
        exact upd_self _ _ _
      · intro g d ho c hc
        have hgd : w.gen = g ∧ t.next = d := by
          simpa [owes, Sys.on, upd_self] using ho
        rw [← hgd.1, ← hgd.2]
        exact hon.grows.due (howed v hr c hc)
    cases out with
    | raised ok => exact absurd ⟨ok, rfl⟩ hraised
    | deferred =>
        have hr := hcore.regroups_stagePatch hw' (c := t.next)
          (by rw [hw'']; exact List.mem_append_right _ (List.mem_singleton_self _))
        have hq := hquiet _ hr rfl rfl
        rw [hw''] at hq ⊢
        exact hq
    | folded =>
        have hq := hquiet _ (hcore.regroups_stagedFold hw') rfl rfl
        rw [hw''] at hq ⊢
        exact hq
    | «sealed» =>
        have hsome : t'.side.folded w' = false := by
          rw [hw'']
          simp [WriteSide.folded]
        have hbehind : t'.CutsBehind := (hcuts (hcut rfl)).logFrames hw ht'
        obtain ⟨hc, hg, hall, hback⟩ := hcore.fold_core hw' hbehind hsome
        obtain ⟨hfs, hfh, -⟩ := fold_frame t' w'
        refine ⟨hc, (hst.trans hgrows).trans hg, hfh.trans (hholder'.trans hholder),
          fun j _ => ?_, ⟨(s.sessions i).owed, ?_⟩, fun g d _ c hc' => ?_⟩
        · change (t'.fold w').sessions j = _
          rw [hfs, hsame]
        · change (t'.fold w').sessions i = _
          rw [hfs, hsame]
        · exact Or.inl (hall c (hback c (WriteSide.holds_of_changes hc')))
    | unfolded =>
        have hroots : t'.side.changes = t.side.changes := by
          rw [hside]
          simp [WriteSide.changes, WriteSide.patches, hw]
        refine ⟨hcore, hst.trans hgrows, hholder'.trans hholder, fun j _ => ?_,
          ⟨(s.sessions i).owed, ?_⟩, fun g d ho c hc => ?_⟩
        · change t'.sessions j = _
          rw [hsame]
        · change t'.sessions i = _
          rw [hsame]
        · change (t'.sessions i).owed = some (g, d) at ho
          change c ∈ t'.side.changes at hc
          rw [hroots] at hc
          rw [hsess'] at ho
          exact hgrows.due (howes' g d ho c hc)

end Sys

end Zu.Shared
