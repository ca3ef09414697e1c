import Zu.Wal.GroupCommit

/-!
# Commits are covered in the order they were staged

A sync covers what is in the file when it begins, so a commit staged before another is
covered by whatever covers the other. `Behind c d` is that relation between two
commits of one log: the steps of `sync_through` keep it, and so does a cut that empties
the log or that synced itself.
-/

namespace Zu.Wal

/-- Whatever has covered `d`, or taken it out of the log, did the same for `c`. -/
structure Behind (s : Sys) (c d : Thread) : Prop where
  seen : ∀ l, s.ghost.seen l d = true → s.ghost.seen l c = true
  covered : s.ghost.covered d = true → s.ghost.covered c = true
  folded : s.ghost.folded d = true → s.ghost.covered c = true ∨ s.ghost.folded c = true

/-- A commit that was staged in this log, past its first byte. -/
def Staged (s : Sys) (c : Thread) : Prop := ∃ n, 0 < n ∧ (s.pc c).need? = some n

/-- The steps that neither write to the log nor cut it. -/
def Act.quiet : Act → Bool
  | .stage _ _ | .spill _ | .reset _ _ => false
  | _ => true

/-- What a quiet step does to the commits and to the record of what was cut. -/
structure Kept (s u : Sys) : Prop where
  need : ∀ t, (u.pc t).need? = (s.pc t).need?
  folded : u.ghost.folded = s.ghost.folded
  covered : ∀ t, s.ghost.covered t = true → u.ghost.covered t = true

theorem need_upd {s : Sys} {t : Thread} {p : Pc} (h : p.need? = (s.pc t).need?) (u : Thread) :
    (upd s.pc t p u).need? = (s.pc u).need? := by
  by_cases hu : u = t
  · rw [hu, upd_self, h]
  · rw [upd_of_ne hu]

/-- A quiet step moves one thread and leaves its commit alone. -/
theorem step_quiet {s u : Sys} {a : Act} (ha : a.quiet = true) (hu : step s a = some u) :
    ∃ t p, p.need? = (s.pc t).need? ∧ u.pc = upd s.pc t p ∧
      (u.ghost = s.ghost ∨ u.ghost = s.ghost.syncBegin s.pc s.marks.staged t ∨
        u.ghost = s.ghost.syncOk t) := by
  cases a with
  | stage t len => cases ha
  | spill len => cases ha
  | reset len synced => cases ha
  | call t =>
      simp only [step] at hu
      split at hu <;> cases hu
      rename_i need hpc
      exact ⟨t, _, by rw [hpc]; rfl, rfl, Or.inl rfl⟩
  | turn t =>
      simp only [step] at hu
      split at hu <;> cases hu
      rename_i need counted hpc
      refine ⟨t, _, ?_, rfl, Or.inl rfl⟩
      rw [hpc]
      cases (s.marks.syncTurn need counted).2 <;> rfl
  | wake t =>
      simp only [step] at hu
      split at hu <;> cases hu
      rename_i need hpc
      exact ⟨t, _, by rw [hpc]; rfl, rfl, Or.inl rfl⟩
  | gathered t =>
      simp only [step] at hu
      split at hu <;> cases hu
      rename_i need hpc
      exact ⟨t, _, by rw [hpc]; rfl, rfl, Or.inl rfl⟩
  | syncBegin t =>
      simp only [step] at hu
      split at hu <;> cases hu
      rename_i need target hpc
      exact ⟨t, _, by rw [hpc]; rfl, rfl, Or.inr (Or.inl rfl)⟩
  | syncEnd t ok =>
      simp only [step] at hu
      split at hu <;> cases hu
      rename_i need target hpc
      refine ⟨t, _, by rw [hpc]; rfl, rfl, ?_⟩
      cases ok
      · exact Or.inl rfl
      · exact Or.inr (Or.inr rfl)
  | finish t took =>
      simp only [step] at hu
      split at hu <;> cases hu
      rename_i need target ok hpc
      exact ⟨t, _, by rw [hpc]; rfl, rfl, Or.inl rfl⟩

theorem step_kept {s u : Sys} {a : Act} (ha : a.quiet = true) (hu : step s a = some u) :
    Kept s u := by
  obtain ⟨t, p, hp, hpc, hghost⟩ := step_quiet ha hu
  refine ⟨fun v => by rw [hpc]; exact need_upd hp v, ?_, fun v hv => ?_⟩
  · rcases hghost with h | h | h <;> rw [h] <;> rfl
  · rcases hghost with h | h | h <;> rw [h]
    · exact hv
    · exact hv
    · simp [Ghost.syncOk, hv]

theorem Behind.step {s u : Sys} {a : Act} {c d : Thread} (h : Behind s c d)
    (hc : Staged s c) (ha : a.quiet = true) (hu : step s a = some u) : Behind u c d := by
  obtain ⟨t, p, -, -, hghost⟩ := step_quiet ha hu
  obtain ⟨n, -, hneed⟩ := hc
  rcases hghost with hg | hg | hg
  · exact ⟨by rw [hg]; exact h.seen, by rw [hg]; exact h.covered, by rw [hg]; exact h.folded⟩
  · refine ⟨fun l hl => ?_, by rw [hg]; exact h.covered, by rw [hg]; exact h.folded⟩
    rw [hg] at hl ⊢
    by_cases hlt : l = t
    · simp [Ghost.syncBegin, hlt, hneed]
    · simp only [Ghost.syncBegin, upd_of_ne hlt] at hl ⊢
      exact h.seen l hl
  · refine ⟨by rw [hg]; exact h.seen, fun hd => ?_, fun hd => ?_⟩
    · rw [hg] at hd ⊢
      simp only [Ghost.syncOk, Bool.or_eq_true] at hd ⊢
      exact hd.imp h.covered (h.seen t)
    · rw [hg] at hd ⊢
      simp only [Ghost.syncOk, Bool.or_eq_true] at hd ⊢
      exact (h.folded hd).imp_left Or.inl

/-- A cut that synced itself covers every commit of the log. -/
theorem covered_reset {s : Sys} {c : Thread} (hc : Staged s c) (len : ℕ) :
    (s.ghost.reset s.pc len true).covered c = true := by
  obtain ⟨n, -, hneed⟩ := hc
  simp [Ghost.reset, hneed]

/-- No sync has covered a commit that was just staged, so every other is behind it. -/
theorem behind_stage (s : Sys) (c t : Thread) (pc : Thread → Pc) (m : Marks) :
    Behind { marks := m, pc, ghost := s.ghost.stage t } c t := by
  refine ⟨fun l hl => ?_, fun hd => ?_, fun hd => ?_⟩
  · simp [Ghost.stage] at hl
  · simp [Ghost.stage] at hd
  · simp [Ghost.stage] at hd

theorem Behind.stage {s : Sys} {c d t : Thread} (h : Behind s c d) (hc : c ≠ t) (hd : d ≠ t)
    (pc : Thread → Pc) (m : Marks) : Behind { marks := m, pc, ghost := s.ghost.stage t } c d where
  seen l hl := by
    simp only [Ghost.stage, if_neg hd, if_neg hc] at hl ⊢
    exact h.seen l hl
  covered := by
    simp only [Ghost.stage, upd_of_ne hd, upd_of_ne hc]
    exact h.covered
  folded := by
    simp only [Ghost.stage, upd_of_ne hd, upd_of_ne hc]
    exact h.folded

end Zu.Wal
