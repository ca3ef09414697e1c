import Zu.Shared.Step
import Zu.Wal.Behind

/-!
# What is on the platter

A change is on the platter once a sync has covered its frames or a header on the disk
holds it. `Core` relates the write side to that: every change the side holds is on the
platter or still in the log its writer commits to. A fold, an opened writer and an
undone statement keep it as long as no cut goes below a sync in flight.
-/

namespace Zu.Shared

open Wal (upd upd_self upd_of_ne Staged Behind)

/-- The side holds a change: its roots reach it, its writer or its log does, or the
savepoint would go back to it. -/
def WriteSide.Holds (side : WriteSide) (c : ℕ) : Prop :=
  c ∈ side.file.db.roots ∨
    (∃ w, side.writer = some w ∧ (c ∈ w.overlay ∨ c ∈ w.patches)) ∨
      (∃ db, side.file.saved = some db ∧ c ∈ db.roots) ∨
        ∃ f ∈ side.log, f.change = c

theorem WriteSide.holds_of_changes {side : WriteSide} {c : ℕ} (h : c ∈ side.changes) :
    side.Holds c := by
  rcases List.mem_append.1 h with h | h
  · exact Or.inl h
  · cases hw : side.writer with
    | none => simp [patches, hw] at h
    | some w => exact Or.inr (Or.inl ⟨w, hw, Or.inr (by simpa [patches, hw] using h)⟩)

namespace Sys

/-- A change that a header on the disk has held, or whose frames a completed sync
covers. -/
def OnPlatter (s : Sys) (c : ℕ) : Prop :=
  s.sealed c = true ∨ ∃ g, s.opening c = some g ∧ (s.logs g).ghost.covered c = true

/-- A change staged in the log the writer commits to. -/
def Tracked (s : Sys) (c : ℕ) : Prop :=
  ∃ w, s.side.writer = some w ∧ s.opening c = some w.gen ∧ Staged (s.logs w.gen) c

/-- A change staged in the log the writer commits to, behind the change `d`. -/
def Covers (s : Sys) (g d c : ℕ) : Prop :=
  ∃ w, s.side.writer = some w ∧ w.gen = g ∧ s.opening c = some g ∧ s.opening d = some g ∧
    Staged (s.logs g) c ∧ Behind (s.logs g) c d

/-- Waiting for the change `d` is waiting for `c`. -/
def Due (s : Sys) (g d c : ℕ) : Prop := s.OnPlatter c ∨ s.Covers g d c

/-- What the write side, the logs and the published state keep. -/
structure Base (s : Sys) : Prop where
  made : ∀ c, s.next ≤ c → s.opening c = none ∧ s.sealed c = false
  opened : ∀ c g, s.opening c = some g → g < s.gens
  gen_lt : ∀ w, s.side.writer = some w → w.gen < s.gens
  wal : ∀ w, s.side.writer = some w → Wal.Inv (s.logs w.gen)
  /-- What was cut out of the log is in a header on the disk. -/
  cut : ∀ w, s.side.writer = some w → ∀ c, s.opening c = some w.gen →
    (s.logs w.gen).ghost.folded c = true → s.sealed c = true
  lt : ∀ c, s.side.Holds c → c < s.next
  held : ∀ c, s.side.Holds c → s.OnPlatter c ∨ s.Tracked c ∨ ∃ f ∈ s.side.log, f.change = c
  logged : ∀ w, s.side.writer = some w → ∀ f ∈ s.side.log,
    f.change ∈ s.side.file.db.roots ∨ f.change ∈ w.overlay
  tracked : ∀ c, s.Tracked c → s.sealed c = true ∨ ∃ f ∈ s.side.log, f.change = c
  below : ∀ f ∈ s.side.log, f.epoch ≤ s.side.file.db.walSeq → f.change ∈ s.side.file.db.roots
  belowSaved : ∀ db, s.side.file.saved = some db → ∀ f ∈ s.side.log,
    f.epoch ≤ db.walSeq → f.change ∈ db.roots
  walSeq_le : ∀ w, s.side.writer = some w → s.side.file.db.walSeq ≤ w.epoch
  saved_le : ∀ db, s.side.file.saved = some db → db.walSeq ≤ s.side.file.db.walSeq
  shown : ∀ c ∈ s.published.changes, s.OnPlatter c

/-- Between two calls the frames in the log are the writer's own, or covered. -/
structure Core (s : Sys) : Prop extends Base s where
  log_safe : ∀ f ∈ s.side.log, s.OnPlatter f.change ∨ s.Tracked f.change

theorem Core.safe {s : Sys} (h : Core s) {c : ℕ} (hc : s.side.Holds c) :
    s.OnPlatter c ∨ s.Tracked c := by
  rcases h.held c hc with hp | ht | ⟨f, hf, rfl⟩
  · exact Or.inl hp
  · exact Or.inr ht
  · exact h.log_safe f hf

/-- One state keeps what another had on the platter, and its debts. -/
structure Grows (s u : Sys) : Prop where
  onPlatter : ∀ c, s.OnPlatter c → u.OnPlatter c
  covers : ∀ g d c, s.Covers g d c → u.Due g d c

theorem Grows.refl (s : Sys) : Grows s s := ⟨fun _ => id, fun _ _ _ => Or.inr⟩

theorem Grows.due {s u : Sys} (h : Grows s u) {g d c : ℕ} (hd : s.Due g d c) :
    u.Due g d c :=
  hd.elim (fun hp => Or.inl (h.onPlatter c hp)) (h.covers g d c)

theorem Grows.trans {s t u : Sys} (h : Grows s t) (h' : Grows t u) : Grows s u :=
  ⟨fun c hc => h'.onPlatter c (h.onPlatter c hc), fun g d c hc => h'.due (h.covers g d c hc)⟩

theorem Covers.tracked {s : Sys} {g d c : ℕ} (h : s.Covers g d c) : s.Tracked c := by
  obtain ⟨w, hw, rfl, hc, -, hstaged, -⟩ := h
  exact ⟨w, hw, hc, hstaged⟩

/-- A log that owes nothing has every change of its writer on the platter. -/
theorem Base.onPlatter_of_settled {s : Sys} (h : Base s) (hs : s.settled = true) {c : ℕ}
    (hc : s.Tracked c) : s.OnPlatter c := by
  obtain ⟨w, hw, hopen, n, -, hneed⟩ := hc
  have hwal := h.wal w hw
  have hmarks : (s.logs w.gen).marks.staged ≤ (s.logs w.gen).marks.durable := by
    simp only [settled, hw, Wal.Marks.settled, Bool.and_eq_true, decide_eq_true_eq] at hs
    exact hs.2
  cases hf : (s.logs w.gen).ghost.folded c with
  | true => exact Or.inl (h.cut w hw c hopen hf)
  | false =>
      have hle := hwal.need_le c n hneed hf
      exact Or.inr ⟨w.gen, hopen, hwal.platter_covers c n hneed hf
        (hle.trans (hmarks.trans hwal.durable_le))⟩

/-- A call of `sync_through` that returned `Ok` leaves what it waited for on the
platter. -/
theorem Base.onPlatter_of_returned {s : Sys} (h : Base s) {g d c n : ℕ}
    (hc : s.Covers g d c) (hret : (s.logs g).pc d = .returned n true) : s.OnPlatter c := by
  obtain ⟨w, hw, rfl, hopen, -, -, hbehind⟩ := hc
  have hcovered (hcov : (s.logs w.gen).ghost.covered c = true) : s.OnPlatter c :=
    Or.inr ⟨w.gen, hopen, hcov⟩
  rcases (h.wal w hw).answered d n hret with hd | hd
  · exact hcovered (hbehind.covered hd)
  · rcases hbehind.folded hd with hcov | hfold
    · exact hcovered hcov
    · exact Or.inl (h.cut w hw c hopen hfold)

/-! ### A fold -/

/-- A cut of the writer's log to nothing stays behind every sync in flight. -/
def CutsBehind (s : Sys) : Prop :=
  ∀ w, s.side.writer = some w → Wal.CutsBehindLeaders (s.logs w.gen) (.reset 0 false)

theorem onPlatter_of_logs {s u : Sys} (hopen : u.opening = s.opening)
    (hsealed : ∀ c, s.sealed c = true → u.sealed c = true)
    (hcovered : ∀ g c, (s.logs g).ghost.covered c = true → (u.logs g).ghost.covered c = true)
    {c : ℕ} (h : s.OnPlatter c) : u.OnPlatter c := by
  rcases h with hs | ⟨g, ho, hc⟩
  · exact Or.inl (hsealed c hs)
  · exact Or.inr ⟨g, by rw [hopen]; exact ho, hcovered g c hc⟩

@[simp] theorem cutLog_side (s : Sys) (g len : ℕ) (synced : Bool) :
    (s.cutLog g len synced).side = s.side := rfl

theorem covered_cutLog (s : Sys) (g len : ℕ) (synced : Bool) (g' c : ℕ)
    (h : (s.logs g').ghost.covered c = true) :
    ((s.cutLog g len synced).logs g').ghost.covered c = true := by
  by_cases hg : g' = g
  · subst hg
    simp [cutLog, Wal.Ghost.reset, h]
  · simp [cutLog, upd_of_ne hg, h]

/-- A fold that finds something to do leaves a published header and an empty log. -/
theorem Base.fold_core {s : Sys} (h : Base s) {w : Writer} (hw : s.side.writer = some w)
    (hcut : s.CutsBehind) (hsome : s.side.folded w = false) :
    Core (s.fold w) ∧ Grows s (s.fold w) ∧ (∀ c, s.side.Holds c → (s.fold w).OnPlatter c) ∧
      ∀ c, (s.fold w).side.Holds c → s.side.Holds c := by
  have hfold : s.fold w =
      ({ s with side := s.side.checkpointFold w }.sealRoots).cutLog w.gen 0 false := by
    rw [fold, hsome]
    rfl
  rw [hfold]
  generalize hu : ({ s with side := s.side.checkpointFold w }.sealRoots).cutLog w.gen 0 false = u
  have hside : u.side = s.side.checkpointFold w := by rw [← hu]; rfl
  have hroots : u.side.file.db.roots = s.side.file.db.roots ++ w.overlay := by
    rw [hside]
    simp [WriteSide.checkpointFold, WriteSide.foldRoots]
  have hlog : u.side.log = [] := by rw [hside]; rfl
  have hwriter : u.side.writer = some { w with overlay := [], patches := [] } := by
    rw [hside]
    rfl
  have hsaved : u.side.file.saved = s.side.file.saved := by
    rw [hside]
    simp only [WriteSide.checkpointFold, File.checkpoint_saved]
    rfl
  have hopen : u.opening = s.opening := by rw [← hu]; rfl
  have hnext : u.next = s.next := by rw [← hu]; rfl
  have hgens : u.gens = s.gens := by rw [← hu]; rfl
  have hpub : u.published = s.published := by rw [← hu]; rfl
  have hsealed : ∀ c, u.sealed c = true ↔
      s.sealed c = true ∨ c ∈ s.side.file.db.roots ++ w.overlay := by
    intro c
    rw [← hroots, ← hu]
    simp [cutLog, sealRoots]
  have hlog' : ∀ c, (∃ f ∈ s.side.log, f.change = c) → u.sealed c = true := by
    rintro c ⟨f, hf, rfl⟩
    exact (hsealed f.change).2 (Or.inr (List.mem_append.2 (h.logged w hw f hf)))
  have htracked : ∀ c, s.Tracked c → u.sealed c = true := fun c hc =>
    (h.tracked c hc).elim (fun hs => (hsealed c).2 (Or.inl hs)) (hlog' c)
  have hmono : ∀ c, s.OnPlatter c → u.OnPlatter c := fun c hc =>
    onPlatter_of_logs hopen (fun d hd => (hsealed d).2 (Or.inl hd))
      (fun g d hd => by rw [← hu]; exact covered_cutLog _ w.gen 0 false g d hd) hc
  have hheld : ∀ c, s.side.Holds c → u.OnPlatter c := fun c hc => by
    rcases h.held c hc with hp | ht | hl
    · exact hmono c hp
    · exact Or.inl (htracked c ht)
    · exact Or.inl (hlog' c hl)
  have hback : ∀ c, u.side.Holds c → s.side.Holds c := by
    rintro c (hc | ⟨w', hw', hc⟩ | ⟨db, hdb, hc⟩ | ⟨f, hf, -⟩)
    · rw [hroots] at hc
      rcases List.mem_append.1 hc with hc | hc
      · exact Or.inl hc
      · exact Or.inr (Or.inl ⟨w, hw, Or.inl hc⟩)
    · rw [hwriter] at hw'
      cases hw'
      simp at hc
    · exact Or.inr (Or.inr (Or.inl ⟨db, hsaved ▸ hdb, hc⟩))
    · rw [hlog] at hf
      cases hf
  have hpc : ∀ c, (u.logs w.gen).pc c = (s.logs w.gen).pc c := fun c => by
    rw [← hu]
    simp [cutLog]
    rfl
  have hfolded : ∀ c, (u.logs w.gen).ghost.folded c = true →
      (s.logs w.gen).ghost.folded c = true ∨ Staged (s.logs w.gen) c := by
    intro c hc
    rw [← hu] at hc
    simp only [cutLog, upd_self, Wal.Ghost.reset, Bool.or_eq_true] at hc
    refine hc.imp id fun hany => ?_
    obtain ⟨n, hn, hlt⟩ := (Option.any_eq_true _ _).1 hany
    exact ⟨n, of_decide_eq_true hlt, hn⟩
  have hstays : ∀ c, u.Tracked c → u.sealed c = true := by
    rintro c ⟨w', hw', ho, n, hn, hneed⟩
    rw [hwriter] at hw'
    cases hw'
    refine htracked c ⟨w, hw, by rw [← hopen]; exact ho, n, hn, ?_⟩
    rw [← hpc]
    exact hneed
  refine ⟨⟨?_, ?_⟩, ⟨hmono, fun g d c hc => Or.inl (Or.inl (htracked c hc.tracked))⟩,
    hheld, hback⟩
  · exact
    { made := fun c hc => by
        rw [hnext] at hc
        refine ⟨by rw [hopen]; exact (h.made c hc).1, Bool.eq_false_iff.2 fun hs => ?_⟩
        rcases (hsealed c).1 hs with hs | hs
        · rw [(h.made c hc).2] at hs
          cases hs
        · rw [← hroots] at hs
          exact absurd (h.lt c (hback c (Or.inl hs))) (Nat.not_lt.2 hc)
      opened := fun c g ho => by
        rw [hgens]
        exact h.opened c g (hopen ▸ ho)
      gen_lt := fun w' hw' => by
        rw [hwriter] at hw'
        cases hw'
        rw [hgens]
        exact h.gen_lt w hw
      wal := fun w' hw' => by
        rw [hwriter] at hw'
        cases hw'
        rw [← hu]
        simp only [cutLog, upd_self]
        exact (h.wal w hw).reset false (hcut w hw)
      cut := fun w' hw' c ho hf => by
        rw [hwriter] at hw'
        cases hw'
        rw [hopen] at ho
        rcases hfolded c hf with hf | hs
        · exact (hsealed c).2 (Or.inl (h.cut w hw c ho hf))
        · exact htracked c ⟨w, hw, ho, hs⟩
      lt := fun c hc => hnext ▸ h.lt c (hback c hc)
      held := fun c hc => Or.inl (hheld c (hback c hc))
      logged := fun w' _ f hf => by
        rw [hlog] at hf
        cases hf
      tracked := fun c hc => Or.inl (hstays c hc)
      below := fun f hf => by
        rw [hlog] at hf
        cases hf
      belowSaved := fun db _ f hf => by
        rw [hlog] at hf
        cases hf
      walSeq_le := fun w' hw' => by
        rw [hwriter] at hw'
        cases hw'
        rw [hside]
        simp [WriteSide.checkpointFold, WriteSide.foldRoots]
      saved_le := fun db hdb => by
        rw [hsaved] at hdb
        have hle := (h.saved_le db hdb).trans (h.walSeq_le w hw)
        rw [hside]
        simpa [WriteSide.checkpointFold, WriteSide.foldRoots] using hle
      shown := fun c hc => hmono c (h.shown c (hpub ▸ hc)) }
  · intro f hf
    rw [hlog] at hf
    cases hf

theorem Base.core_of_folded {s : Sys} (h : Base s) {w : Writer} (hnone : s.side.folded w = true) :
    Core s := by
  refine ⟨h, fun f hf => ?_⟩
  rw [WriteSide.folded, Bool.and_eq_true, List.isEmpty_iff, List.isEmpty_iff] at hnone
  rw [hnone.2] at hf
  cases hf

/-- A fold leaves what the side held on the platter, or did nothing. -/
theorem Base.fold {s : Sys} (h : Base s) {w : Writer} (hw : s.side.writer = some w)
    (hcut : s.CutsBehind) :
    Core (s.fold w) ∧ Grows s (s.fold w) ∧
      ((∀ c, s.side.Holds c → (s.fold w).OnPlatter c) ∨ s.fold w = s) ∧
      ∀ c, (s.fold w).side.Holds c → s.side.Holds c := by
  cases hf : s.side.folded w with
  | false =>
      obtain ⟨hcore, hgrows, hheld, hback⟩ := h.fold_core hw hcut hf
      exact ⟨hcore, hgrows, Or.inl hheld, hback⟩
  | true =>
      have hsame : s.fold w = s := by rw [Sys.fold, hf]; rfl
      rw [hsame]
      exact ⟨h.core_of_folded hf, Grows.refl s, Or.inr rfl, fun _ => id⟩

/-! ### Opening a writer -/

/-- A log that has just been opened has no commit of its own. -/
theorem not_tracked_of_new {s : Sys} (h : Base s) {c : ℕ} : s.opening c ≠ some s.gens :=
  fun ho => absurd (h.opened c s.gens ho) (Nat.lt_irrefl _)

theorem le_foldl_max (xs : List ℕ) (n : ℕ) : n ≤ xs.foldl max n := by
  induction xs generalizing n with
  | nil => exact le_rfl
  | cons x xs ih => exact (le_max_left n x).trans (ih _)

theorem Base.openWriter {s : Sys} (h : Base s) (hw : s.side.writer = none) :
    Core s.openWriter ∧ (∀ c, s.OnPlatter c → s.openWriter.OnPlatter c) ∧
      (∀ c, s.side.Holds c → s.openWriter.OnPlatter c) ∧
      ∀ c, s.openWriter.side.Holds c → s.openWriter.OnPlatter c := by
  rw [Sys.openWriter]
  generalize ht : ({ s with
    side := { s.side with writer := some (s.side.recovered s.gens) }
    logs := upd s.logs s.gens (Wal.Sys.new (endOf s.side.log))
    gens := s.gens + 1 } : Sys) = t
  have hside : t.side = { s.side with writer := some (s.side.recovered s.gens) } := by
    rw [← ht]
  have hwriter : t.side.writer = some (s.side.recovered s.gens) := by rw [hside]
  have hopen : t.opening = s.opening := by rw [← ht]
  have hnext : t.next = s.next := by rw [← ht]
  have hnew : t.logs s.gens = Wal.Sys.new (endOf s.side.log) := by
    rw [← ht]
    exact upd_self _ _ _
  have hmono : ∀ c, s.OnPlatter c → t.OnPlatter c := by
    rintro c (hc | ⟨g, ho, hc⟩)
    · exact Or.inl (by rw [← ht]; exact hc)
    · refine Or.inr ⟨g, by rw [hopen]; exact ho, ?_⟩
      have hne : g ≠ s.gens := (h.opened c g ho).ne
      rw [← ht]
      simpa [upd_of_ne hne] using hc
  have hback : ∀ c, t.side.Holds c → s.side.Holds c := by
    rw [hside]
    rintro c (hc | ⟨w, hw', hc⟩ | hc | hc)
    · exact Or.inl hc
    · cases hw'
      simp only [WriteSide.recovered, replayed, List.mem_map, List.mem_filter, List.not_mem_nil,
        or_false] at hc
      obtain ⟨f, ⟨hf, -⟩, hfc⟩ := hc
      exact Or.inr (Or.inr (Or.inr ⟨f, hf, hfc⟩))
    · exact Or.inr (Or.inr (Or.inl hc))
    · exact Or.inr (Or.inr (Or.inr hc))
  have hno : ∀ c, ¬ t.Tracked c := by
    rintro c ⟨w, hw', ho, -⟩
    rw [hwriter] at hw'
    cases hw'
    rw [hopen] at ho
    exact not_tracked_of_new h ho
  have hheld : ∀ c, s.side.Holds c →
      t.OnPlatter c ∨ t.Tracked c ∨ ∃ f ∈ t.side.log, f.change = c := by
    intro c hc
    rcases h.held c hc with hp | ⟨w, hw', -⟩ | hl
    · exact Or.inl (hmono c hp)
    · rw [hw] at hw'
      cases hw'
    · exact Or.inr (Or.inr (by rw [hside]; exact hl))
  have hbase : Base t :=
    { made := fun c hc => by
        rw [hopen, show t.sealed = s.sealed by rw [← ht]]
        exact h.made c (hnext ▸ hc)
      opened := fun c g ho => by
        rw [show t.gens = s.gens + 1 by rw [← ht]]
        exact (h.opened c g (hopen ▸ ho)).trans (Nat.lt_succ_self _)
      gen_lt := fun w hw' => by
        rw [hwriter] at hw'
        cases hw'
        rw [show t.gens = s.gens + 1 by rw [← ht]]
        exact Nat.lt_succ_self _
      wal := fun w hw' => by
        rw [hwriter] at hw'
        cases hw'
        change Wal.Inv (t.logs s.gens)
        rw [hnew]
        exact Wal.inv_new _
      cut := fun w hw' c ho => by
        rw [hwriter] at hw'
        cases hw'
        rw [hopen] at ho
        exact absurd ho (not_tracked_of_new h)
      lt := fun c hc => hnext ▸ h.lt c (hback c hc)
      held := fun c hc => hheld c (hback c hc)
      logged := fun w hw' f hf => by
        rw [hwriter] at hw'
        cases hw'
        rw [hside] at hf ⊢
        by_cases he : f.epoch ≤ s.side.file.db.walSeq
        · exact Or.inl (h.below f hf he)
        · refine Or.inr (List.mem_map_of_mem (List.mem_filter.2 ⟨hf, ?_⟩))
          exact decide_eq_true (Nat.lt_of_not_le he)
      tracked := fun c hc => absurd hc (hno c)
      below := by
        rw [hside]
        exact h.below
      belowSaved := by
        rw [hside]
        exact h.belowSaved
      walSeq_le := fun w hw' => by
        rw [hwriter] at hw'
        cases hw'
        rw [hside]
        exact le_foldl_max _ _
      saved_le := by
        rw [hside]
        exact h.saved_le
      shown := fun c hc => hmono c (h.shown c (by rw [← ht] at hc; exact hc)) }
  have hcuts : t.CutsBehind := by
    intro w hw' l target hl
    rw [hwriter] at hw'
    cases hw'
    change ((t.logs s.gens).pc l).inFlight? = some target at hl
    rw [hnew] at hl
    cases hl
  obtain ⟨hcore, hgrows, hall, hfold⟩ := hbase.fold hwriter hcuts
  have hput : ∀ c, s.side.Holds c → (t.fold (s.side.recovered s.gens)).OnPlatter c := by
    intro c hc
    rcases hheld c hc with hp | ht' | hl
    · exact hgrows.onPlatter c hp
    · exact absurd ht' (hno c)
    · have ht' : t.side.Holds c := Or.inr (Or.inr (Or.inr hl))
      rcases hall with hall | hsame
      · exact hall c ht'
      · rw [hsame] at hcore ⊢
        exact (hcore.safe ht').resolve_right (hno c)
  exact ⟨hcore, fun c hc => hgrows.onPlatter c (hmono c hc), hput,
    fun c hc => hput c (hback c (hfold c hc))⟩

/-! ### Undoing a statement -/

/-- A log that is cut back leaves what it held on the platter, or in what is left. -/
theorem Core.discardAbove {s : Sys} (h : Core s) (floor : ℕ) :
    (s.discardAbove floor).side.writer = none ∧
      (s.discardAbove floor).side.log.Sublist s.side.log ∧
      (∀ c, s.OnPlatter c → (s.discardAbove floor).OnPlatter c) ∧
      ∀ c, s.Tracked c → (s.discardAbove floor).OnPlatter c ∨
        ∃ f ∈ (s.discardAbove floor).side.log, f.change = c := by
  rw [Sys.discardAbove]
  cases hw : s.side.writer with
  | none =>
      refine ⟨hw, List.Sublist.refl _, fun _ => id, ?_⟩
      rintro c ⟨w, hw', -⟩
      rw [hw] at hw'
      cases hw'
  | some w =>
      have hsub : (cutAbove floor s.side.log).Sublist s.side.log := List.takeWhile_sublist _
      simp only
      split_ifs with hlen
      · have hsame : cutAbove floor s.side.log = s.side.log := hsub.eq_of_length hlen
        refine ⟨rfl, hsub, fun c hc => hc, fun c hc => ?_⟩
        rcases h.tracked c hc with hs | hl
        · exact Or.inl (Or.inl hs)
        · exact Or.inr (by simpa only [hsame] using hl)
      · refine ⟨rfl, hsub, fun c hc => ?_, ?_⟩
        · refine onPlatter_of_logs ?_ (fun _ hd => ?_) (fun g d hd => ?_) hc
          · rfl
          · exact hd
          · exact covered_cutLog _ w.gen _ true g d hd
        · rintro c ⟨w', hw', ho, hstaged⟩
          rw [hw] at hw'
          cases hw'
          refine Or.inl (Or.inr ⟨w.gen, ho, ?_⟩)
          simpa [cutLog] using Wal.covered_reset hstaged _

theorem discardAbove_frame (s : Sys) (floor : ℕ) :
    (s.discardAbove floor).side.file = s.side.file ∧
      (s.discardAbove floor).opening = s.opening ∧ (s.discardAbove floor).next = s.next ∧
      (s.discardAbove floor).gens = s.gens ∧ (s.discardAbove floor).sealed = s.sealed ∧
      (s.discardAbove floor).published = s.published := by
  rw [Sys.discardAbove]
  cases s.side.writer with
  | none => exact ⟨rfl, rfl, rfl, rfl, rfl, rfl⟩
  | some w =>
      simp only
      split_ifs <;> exact ⟨rfl, rfl, rfl, rfl, rfl, rfl⟩

/-- What taking the log and the file back leaves: everything the side held is on the
platter, or in the log for the next writer to fold. -/
theorem Core.taken_back {s u : Sys} (h : Core s) {saved : Savepoint}
    (hsaved : s.side.file.savepoint = some saved)
    (hu : (s.discardAbove saved.logFloor).rollbackSavepoint saved = u) :
    Base u ∧ u.side.writer = none ∧ (∀ c, s.OnPlatter c → u.OnPlatter c) ∧
      (∀ c, s.Tracked c → u.OnPlatter c ∨ ∃ f ∈ u.side.log, f.change = c) ∧
      ∀ c, u.side.Holds c → s.side.Holds c := by
  obtain ⟨hwriter, hsub, hplatter, htracked⟩ := h.discardAbove saved.logFloor
  obtain ⟨hfile, hopen, hnext, hgens, hsealed, hpub⟩ := discardAbove_frame s saved.logFloor
  generalize ht : s.discardAbove saved.logFloor = t at *
  have hdb : s.side.file.saved = some saved.db := by rw [File.saved, hsaved]; rfl
  have hside : u.side = { t.side with file := t.side.file.rollbackSavepoint } := by
    rw [← hu, rollbackSavepoint]
    split_ifs <;> rfl
  have hroots : u.side.file.db.roots = saved.db.roots ∧
      u.side.file.db.walSeq = saved.db.walSeq ∧ u.side.file.saved = none := by
    rw [hside, hfile]
    simp only [File.rollbackSavepoint, hsaved]
    split_ifs <;> exact ⟨rfl, rfl, rfl⟩
  have hlog : u.side.log = t.side.log := by rw [hside]
  have hnone : u.side.writer = none := by rw [hside]; exact hwriter
  have hopen' : u.opening = s.opening := by
    rw [← hu, rollbackSavepoint, ← hopen]
    split_ifs <;> rfl
  have hnext' : u.next = s.next := by
    rw [← hu, rollbackSavepoint, ← hnext]
    split_ifs <;> rfl
  have hgens' : u.gens = s.gens := by
    rw [← hu, rollbackSavepoint, ← hgens]
    split_ifs <;> rfl
  have hpub' : u.published = s.published := by
    rw [← hu, rollbackSavepoint, ← hpub]
    split_ifs <;> rfl
  have hlogs : u.logs = t.logs := by
    rw [← hu, rollbackSavepoint]
    split_ifs <;> rfl
  have hsealed' : ∀ c, u.sealed c = true →
      s.sealed c = true ∨ c ∈ u.side.file.db.roots := by
    intro c hc
    rw [hside]
    rw [← hu, rollbackSavepoint] at hc
    split_ifs at hc with hepoch
    · exact Or.inl (hsealed ▸ hc)
    · simp only [sealRoots, Bool.or_eq_true, decide_eq_true_eq] at hc
      exact hc.imp (fun hc => hsealed ▸ hc) id
  have hkeeps : ∀ c, t.sealed c = true → u.sealed c = true := by
    intro c hc
    rw [← hu, rollbackSavepoint]
    split_ifs
    · exact hc
    · simp [sealRoots, hc]
  have hmono : ∀ c, t.OnPlatter c → u.OnPlatter c := fun c hc =>
    onPlatter_of_logs (hopen'.trans hopen.symm) hkeeps
      (fun g d hd => by rw [hlogs]; exact hd) hc
  have hback : ∀ c, u.side.Holds c → s.side.Holds c := by
    rintro c (hc | ⟨w, hw, -⟩ | ⟨db, hdb', -⟩ | ⟨f, hf, hfc⟩)
    · exact Or.inr (Or.inr (Or.inl ⟨saved.db, hdb, hroots.1 ▸ hc⟩))
    · rw [hnone] at hw
      cases hw
    · rw [hroots.2.2] at hdb'
      cases hdb'
    · exact Or.inr (Or.inr (Or.inr ⟨f, hsub.subset (hlog ▸ hf), hfc⟩))
  have hput : ∀ c, s.Tracked c → u.OnPlatter c ∨ ∃ f ∈ u.side.log, f.change = c := by
    intro c hc
    rw [hlog]
    exact (htracked c hc).imp_left (hmono c)
  refine ⟨?_, hnone, fun c hc => hmono c (hplatter c hc), hput, hback⟩
  exact
    { made := fun c hc => by
        rw [hnext'] at hc
        refine ⟨by rw [hopen']; exact (h.made c hc).1, Bool.eq_false_iff.2 fun hs => ?_⟩
        rcases hsealed' c hs with hs | hs
        · rw [(h.made c hc).2] at hs
          cases hs
        · exact absurd (h.lt c (hback c (Or.inl hs))) (Nat.not_lt.2 hc)
      opened := fun c g ho => hgens' ▸ h.opened c g (hopen' ▸ ho)
      gen_lt := fun w hw => by
        rw [hnone] at hw
        cases hw
      wal := fun w hw => by
        rw [hnone] at hw
        cases hw
      cut := fun w hw => by
        rw [hnone] at hw
        cases hw
      lt := fun c hc => hnext' ▸ h.lt c (hback c hc)
      held := fun c hc => by
        rcases h.safe (hback c hc) with hp | ht'
        · exact Or.inl (hmono c (hplatter c hp))
        · exact (hput c ht').imp_right Or.inr
      logged := fun w hw => by
        rw [hnone] at hw
        cases hw
      tracked := by
        rintro c ⟨w, hw, -⟩
        rw [hnone] at hw
        cases hw
      below := fun f hf he => by
        rw [hroots.2.1] at he
        rw [hroots.1]
        exact h.belowSaved saved.db hdb f (hsub.subset (hlog ▸ hf)) he
      belowSaved := fun db hdb' => by
        rw [hroots.2.2] at hdb'
        cases hdb'
      walSeq_le := fun w hw => by
        rw [hnone] at hw
        cases hw
      saved_le := fun db hdb' => by
        rw [hroots.2.2] at hdb'
        cases hdb'
      shown := fun c hc => hmono c (hplatter c (h.shown c (hpub' ▸ hc))) }

/-- Undoing a statement leaves what the side then holds on the platter, unless the
writer is not opened again over a log that owes a sync. -/
theorem Core.undo {s : Sys} (h : Core s) {reopened : Bool}
    (hre : reopened = false → s.settled = true) (hin : s.side.file.inSavepoint = true) :
    Core (s.undo reopened) ∧ Grows s (s.undo reopened) ∧
      ∀ c, (s.undo reopened).side.Holds c → (s.undo reopened).OnPlatter c := by
  obtain ⟨saved, hsaved⟩ := Option.isSome_iff_exists.1 hin
  rw [Sys.undo, hsaved]
  simp only
  generalize hu : (s.discardAbove saved.logFloor).rollbackSavepoint saved = u
  obtain ⟨hbase, hnone, hmono, hput, hback⟩ := h.taken_back hsaved hu
  split_ifs with hopen
  · obtain ⟨hcore, hgrows, hheld, hall⟩ := hbase.openWriter hnone
    refine ⟨hcore, ⟨fun c hc => hgrows c (hmono c hc), fun g d c hc => Or.inl ?_⟩, hall⟩
    rcases hput c hc.tracked with hp | hl
    · exact hgrows c hp
    · exact hheld c (Or.inr (Or.inr (Or.inr hl)))
  · -- the log owes nothing, so what is left of it is on the platter already
    have hall : ∀ c, s.OnPlatter c ∨ s.Tracked c → u.OnPlatter c := by
      rintro c (hp | ht)
      · exact hmono c hp
      · refine hmono c (h.onPlatter_of_settled ?_ ht)
        cases reopened with
        | false => exact hre rfl
        | true =>
            obtain ⟨w, hw, -⟩ := ht
            rw [hw] at hopen
            simp at hopen
    refine ⟨⟨hbase, fun f hf => Or.inl ?_⟩,
      ⟨hmono, fun g d c hc => Or.inl (hall c (Or.inr hc.tracked))⟩, fun c hc => ?_⟩
    · exact hall _ (h.safe (hback _ (Or.inr (Or.inr (Or.inr ⟨f, hf, rfl⟩)))))
    · exact hall c (h.safe (hback c hc))

end Sys

end Zu.Shared
