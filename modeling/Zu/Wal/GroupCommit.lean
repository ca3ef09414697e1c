import Zu.Wal.Commits

/-!
# Group commit safety

`Inv` relates the marks to what really happened: the durable mark is below what
completed syncs cover, every staged commit that was not cut away is covered as
soon as the covered prefix reaches it, and a leader's target is still inside the
log. A cut below the target of a running sync breaks the last of the three, and
the leader then writes down a durable mark for bytes that were never synced.
-/

namespace Zu.Wal

/-- What every step keeps while no cut goes below a leader in flight. -/
structure Inv (s : Sys) : Prop where
  durable_le : s.marks.durable ≤ s.ghost.platter
  platter_le : s.ghost.platter ≤ s.marks.staged
  /-- A target that may still be written down is inside the log. -/
  target_le : ∀ l g, (s.pc l).inFlight? = some g → g ≤ s.marks.staged
  /-- A running sync covers at least its target. -/
  cover_ge : ∀ l n g, s.pc l = .syncing n g →
    g ≤ s.ghost.cover l ∧ s.ghost.cover l ≤ s.marks.staged
  /-- A completed sync has put its target on the platter. -/
  synced_le : ∀ l n g, s.pc l = .synced n g true → g ≤ s.ghost.platter
  /-- A commit the log still holds ends inside it. -/
  need_le : ∀ t n, (s.pc t).need? = some n → s.ghost.folded t = false →
    n ≤ s.marks.staged
  /-- A running sync began after every commit it reaches was written. -/
  cover_sees : ∀ l n g t k, s.pc l = .syncing n g → (s.pc t).need? = some k →
    s.ghost.folded t = false → k ≤ s.ghost.cover l → s.ghost.seen l t = true
  /-- What the platter reaches, a sync has covered. -/
  platter_covers : ∀ t n, (s.pc t).need? = some n → s.ghost.folded t = false →
    n ≤ s.ghost.platter → s.ghost.covered t = true
  /-- A leader's target reaches its own commit. -/
  leads_own : ∀ l n g,
    (s.pc l = .leading n g ∨ s.pc l = .syncing n g ∨ ∃ ok, s.pc l = .synced n g ok) →
    s.ghost.folded l = false → n ≤ g
  /-- A call that returned `Ok` was covered or cut away. -/
  answered : ∀ t n, s.pc t = .returned n true →
    s.ghost.covered t = true ∨ s.ghost.folded t = true

theorem inv_new (len : ℕ) : Inv (Sys.new len) := by
  constructor <;> simp [Sys.new, Marks.new, Pc.inFlight?, Pc.need?]

/-- One thread moves between two places that hold the same commit; what its new
place claims or answers is asked of the state it leaves. -/
theorem Inv.move {s : Sys} (h : Inv s) {t : Thread} {p : Pc} {m : Marks}
    (hstaged : m.staged = s.marks.staged) (hdurable : m.durable ≤ s.ghost.platter)
    (hneed : p.need? = (s.pc t).need?)
    (hflight : ∀ g, p.inFlight? = some g → g ≤ s.marks.staged)
    (hsyncing : ∀ n g, p ≠ .syncing n g)
    (hsynced : ∀ n g, p = .synced n g true → g ≤ s.ghost.platter)
    (hown : ∀ n g, (p = .leading n g ∨ p = .syncing n g ∨ ∃ ok, p = .synced n g ok) →
      s.ghost.folded t = false → n ≤ g)
    (hanswer : ∀ n, p = .returned n true →
      s.ghost.covered t = true ∨ s.ghost.folded t = true) :
    Inv { s with marks := m, pc := upd s.pc t p } := by
  have hneed' : ∀ u, (upd s.pc t p u).need? = (s.pc u).need? := by
    intro u
    by_cases hu : u = t
    · subst hu; simp [hneed]
    · rw [upd_of_ne hu]
  have hpc : ∀ u q, upd s.pc t p u = q → (u = t ∧ p = q) ∨ (u ≠ t ∧ s.pc u = q) := by
    intro u q hq
    by_cases hu : u = t
    · subst hu; exact Or.inl ⟨rfl, by simpa using hq⟩
    · exact Or.inr ⟨hu, by rwa [upd_of_ne hu] at hq⟩
  constructor
  · exact hdurable
  · simpa [hstaged] using h.platter_le
  · intro l g hg
    by_cases hl : l = t
    · subst hl
      simp only [upd_self] at hg
      simpa [hstaged] using hflight g hg
    · simp only [upd_of_ne hl] at hg
      simpa [hstaged] using h.target_le l g hg
  · intro l n g hl
    rcases hpc l _ hl with ⟨-, hp⟩ | ⟨-, hp⟩
    · exact absurd hp (hsyncing n g)
    · simpa [hstaged] using h.cover_ge l n g hp
  · intro l n g hl
    rcases hpc l _ hl with ⟨-, hp⟩ | ⟨-, hp⟩
    · exact hsynced n g hp
    · exact h.synced_le l n g hp
  · intro u n hu hf
    simp only [hneed'] at hu
    simpa [hstaged] using h.need_le u n hu hf
  · intro l n g u k hl hu hf hk
    simp only [hneed'] at hu
    rcases hpc l _ hl with ⟨-, hp⟩ | ⟨-, hp⟩
    · exact absurd hp (hsyncing n g)
    · exact h.cover_sees l n g u k hp hu hf hk
  · intro u n hu hf hn
    simp only [hneed'] at hu
    exact h.platter_covers u n hu hf hn
  · intro l n g hl hf
    by_cases ht : l = t
    · subst ht
      simp only [upd_self] at hl
      exact hown n g hl hf
    · simp only [upd_of_ne ht] at hl
      exact h.leads_own l n g hl hf
  · intro u n hu
    rcases hpc u _ hu with ⟨rfl, hp⟩ | ⟨-, hp⟩
    · exact hanswer n hp
    · exact h.answered u n hp

/-- Writing the log out further keeps the invariant. -/
theorem Inv.spill {s : Sys} (h : Inv s) (len : ℕ) :
    Inv { s with marks := s.marks.stagedTo len } where
  durable_le := h.durable_le
  platter_le := le_max_of_le_left h.platter_le
  target_le l g hg := le_max_of_le_left (h.target_le l g hg)
  cover_ge l n g hl := (h.cover_ge l n g hl).imp_right le_max_of_le_left
  synced_le := h.synced_le
  need_le t n ht hf := le_max_of_le_left (h.need_le t n ht hf)
  cover_sees := h.cover_sees
  platter_covers := h.platter_covers
  leads_own := h.leads_own
  answered := h.answered

/-- A thread with no commit of its own stages one past the end of the log. -/
theorem Inv.stage {s : Sys} (h : Inv s) {t : Thread} {len : ℕ}
    (hfree : s.pc t = .idle ∨ ∃ n ok, s.pc t = .returned n ok)
    (hlen : s.marks.staged < len) :
    Inv { marks := s.marks.stagedTo len, pc := upd s.pc t (.holds len),
          ghost := s.ghost.stage t } := by
  have hmax : max s.marks.staged len = len := max_eq_right hlen.le
  have hpc : ∀ u q, (∀ k, q ≠ .holds k) → upd s.pc t (.holds len) u = q →
      u ≠ t ∧ s.pc u = q := by
    intro u q hq hu
    by_cases hut : u = t
    · subst hut
      exact absurd (by simpa using hu.symm) (hq len)
    · exact ⟨hut, by rwa [upd_of_ne hut] at hu⟩
  have hneed : ∀ u k, (upd s.pc t (.holds len) u).need? = some k →
      (u = t ∧ k = len) ∨ (u ≠ t ∧ (s.pc u).need? = some k) := by
    intro u k hk
    by_cases hut : u = t
    · subst hut
      exact Or.inl ⟨rfl, by simpa [Pc.need?] using hk.symm⟩
    · exact Or.inr ⟨hut, by rwa [upd_of_ne hut] at hk⟩
  constructor
  · exact h.durable_le
  · exact le_max_of_le_left h.platter_le
  · intro l g hg
    by_cases hl : l = t
    · subst hl; simp [Pc.inFlight?] at hg
    · simp only [upd_of_ne hl] at hg
      exact le_max_of_le_left (h.target_le l g hg)
  · intro l n g hl
    exact (h.cover_ge l n g (hpc l _ (by simp) hl).2).imp_right le_max_of_le_left
  · intro l n g hl
    exact h.synced_le l n g (hpc l _ (by simp) hl).2
  · intro u k hk hf
    rcases hneed u k hk with ⟨-, rfl⟩ | ⟨hut, hk⟩
    · exact le_max_right _ _
    · refine le_max_of_le_left (h.need_le u k hk ?_)
      simpa [Ghost.stage, upd_of_ne hut] using hf
  · intro l n g u k hl hk hf hcover
    have hl' := (hpc l _ (by simp) hl).2
    rcases hneed u k hk with ⟨-, rfl⟩ | ⟨hut, hk⟩
    · -- the new commit ends past everything a running sync began with
      have hbound := (h.cover_ge l n g hl').2
      simp only [Ghost.stage] at hcover
      omega
    · have hf' : s.ghost.folded u = false := by
        simpa [Ghost.stage, upd_of_ne hut] using hf
      simpa [Ghost.stage, hut] using h.cover_sees l n g u k hl' hk hf' hcover
  · intro u k hk hf hp
    rcases hneed u k hk with ⟨-, rfl⟩ | ⟨hut, hk⟩
    · have hbound := h.platter_le
      simp only [Ghost.stage] at hp
      omega
    · have hf' : s.ghost.folded u = false := by
        simpa [Ghost.stage, upd_of_ne hut] using hf
      simpa [Ghost.stage, upd_of_ne hut] using h.platter_covers u k hk hf' hp
  · intro l n g hl hf
    by_cases hlt : l = t
    · subst hlt; simp at hl
    · simp only [upd_of_ne hlt] at hl
      refine h.leads_own l n g hl ?_
      simpa [Ghost.stage, upd_of_ne hlt] using hf
  · intro u n hu
    obtain ⟨hut, hu'⟩ := hpc u _ (by simp) hu
    simpa [Ghost.stage, upd_of_ne hut] using h.answered u n hu'

/-- A cut behind every leader in flight keeps the invariant. -/
theorem Inv.reset {s : Sys} (h : Inv s) {len : ℕ} (synced : Bool)
    (hcut : ∀ l g, (s.pc l).inFlight? = some g → g ≤ len) :
    Inv { s with marks := s.marks.reset len synced,
                 ghost := s.ghost.reset s.pc len synced } := by
  have hfolded : ∀ t n, (s.pc t).need? = some n →
      (s.ghost.reset s.pc len synced).folded t = false →
        s.ghost.folded t = false ∧ n ≤ len := by
    intro t n hn hf
    simpa [Ghost.reset, hn] using hf
  have hplatter : ∀ g, g ≤ len → g ≤ s.ghost.platter →
      g ≤ (s.ghost.reset s.pc len synced).platter := by
    intro g hg hp
    cases synced
    · exact le_min hp hg
    · exact hg
  constructor
  · cases synced
    · exact Nat.zero_le _
    · exact le_rfl
  · cases synced
    · exact min_le_right _ _
    · exact le_rfl
  · exact hcut
  · intro l n g hl
    have hg : g ≤ len := hcut l g (by simp only at hl; rw [hl]; rfl)
    exact ⟨le_min (h.cover_ge l n g hl).1 hg, min_le_right _ _⟩
  · intro l n g hl
    have hg : g ≤ len := hcut l g (by simp only at hl; rw [hl]; rfl)
    exact hplatter g hg (h.synced_le l n g hl)
  · intro t n hn hf
    exact (hfolded t n hn hf).2
  · intro l n g t k hl hk hf hcover
    exact h.cover_sees l n g t k hl hk (hfolded t k hk hf).1
      (hcover.trans (min_le_left _ _))
  · intro t n hn hf hp
    have hn' : (s.pc t).need? = some n := hn
    cases synced
    · have hold := h.platter_covers t n hn' (hfolded t n hn' hf).1
        (hp.trans (min_le_left _ _))
      simp [Ghost.reset, hold]
    · simp [Ghost.reset, hn']
  · intro l n g hl hf
    have hn : (s.pc l).need? = some n := by
      rcases hl with hl | hl | ⟨ok, hl⟩ <;> simp only at hl <;> rw [hl] <;> rfl
    exact h.leads_own l n g hl (hfolded l n hn hf).1
  · intro t n ht
    rcases h.answered t n ht with hc | hf
    · exact Or.inl (by simp [Ghost.reset, hc])
    · exact Or.inr (by simp [Ghost.reset, hf])

/-- One turn of the loop keeps the invariant. -/
theorem Inv.turn {s : Sys} (h : Inv s) {t : Thread} {need : ℕ} {counted : Bool}
    (ht : s.pc t = .top need counted) :
    Inv { s with
      marks := (s.marks.syncTurn need counted).1
      pc := upd s.pc t
        (Pc.afterTurn need (s.marks.syncTurn need counted).2) } := by
  have hneed : (s.pc t).need? = some need := by rw [ht]; rfl
  obtain ⟨hstaged, hsame⟩ := s.marks.syncTurn_marks need counted
  have hdurable := hsame.trans_le h.durable_le
  generalize hout : (s.marks.syncTurn need counted).2 = out
  cases out with
  | returns =>
      refine h.move hstaged hdurable (by rw [hneed]; rfl) (by simp [Pc.afterTurn, Pc.inFlight?])
        (by simp [Pc.afterTurn]) (by simp [Pc.afterTurn]) (by simp [Pc.afterTurn]) ?_
      intro n hn
      obtain rfl : need = n := by simpa [Pc.afterTurn] using hn
      by_contra hcon
      simp only [not_or, Bool.not_eq_true] at hcon
      have hle := h.need_le t need hneed hcon.2
      have hdur := h.durable_le
      rcases Marks.syncTurn_returns hout with hreach | hshort
      · have hcov := h.platter_covers t need hneed hcon.2 (by omega)
        simp [hcon.1] at hcov
      · omega
  | waits =>
      exact h.move hstaged hdurable (by rw [hneed]; rfl) (by simp [Pc.afterTurn, Pc.inFlight?])
        (by simp [Pc.afterTurn]) (by simp [Pc.afterTurn]) (by simp [Pc.afterTurn])
        (by simp [Pc.afterTurn])
  | gathers =>
      exact h.move hstaged hdurable (by rw [hneed]; rfl) (by simp [Pc.afterTurn, Pc.inFlight?])
        (by simp [Pc.afterTurn]) (by simp [Pc.afterTurn]) (by simp [Pc.afterTurn])
        (by simp [Pc.afterTurn])
  | leads target =>
      obtain rfl := Marks.syncTurn_leads hout
      refine h.move hstaged hdurable (by rw [hneed]; rfl) (by simp [Pc.afterTurn, Pc.inFlight?])
        (by simp [Pc.afterTurn]) (by simp [Pc.afterTurn]) ?_ (by simp [Pc.afterTurn])
      intro n g hp hf
      have hng : need = n ∧ s.marks.staged = g := by simpa [Pc.afterTurn] using hp
      obtain ⟨rfl, rfl⟩ := hng
      exact h.need_le t need hneed hf

theorem Inv.gathered {s : Sys} (h : Inv s) {t : Thread} {need : ℕ}
    (ht : s.pc t = .gathering need) :
    Inv { s with marks := s.marks.lead.1,
                 pc := upd s.pc t (.leading need s.marks.lead.2) } := by
  have hneed : (s.pc t).need? = some need := by rw [ht]; rfl
  refine h.move rfl h.durable_le (by rw [hneed]; rfl) (by simp [Pc.inFlight?])
    (by simp) (by simp) ?_ (by simp)
  intro n g hp hf
  have hng : need = n ∧ s.marks.staged = g := by simpa using hp
  obtain ⟨rfl, rfl⟩ := hng
  exact h.need_le t need hneed hf

theorem Inv.syncBegin {s : Sys} (h : Inv s) {t : Thread} {need target : ℕ}
    (ht : s.pc t = .leading need target) :
    Inv { s with pc := upd s.pc t (.syncing need target),
                 ghost := s.ghost.syncBegin s.pc s.marks.staged t } := by
  have htarget : target ≤ s.marks.staged := h.target_le t target (by rw [ht]; rfl)
  have hneed : ∀ u, (upd s.pc t (.syncing need target) u).need? = (s.pc u).need? := by
    intro u
    by_cases hu : u = t
    · subst hu; rw [upd_self, ht]; rfl
    · rw [upd_of_ne hu]
  constructor
  · exact h.durable_le
  · exact h.platter_le
  · intro l g hg
    by_cases hl : l = t
    · subst hl
      simp only [upd_self, Pc.inFlight?, Option.some.injEq] at hg
      exact hg ▸ htarget
    · simp only [upd_of_ne hl] at hg
      exact h.target_le l g hg
  · intro l n g hl
    by_cases hlt : l = t
    · subst hlt
      have hng : need = n ∧ target = g := by simpa using hl
      simpa [Ghost.syncBegin, ← hng.2] using htarget
    · simp only [upd_of_ne hlt] at hl
      simpa [Ghost.syncBegin, upd_of_ne hlt] using h.cover_ge l n g hl
  · intro l n g hl
    by_cases hlt : l = t
    · subst hlt; simp at hl
    · simp only [upd_of_ne hlt] at hl
      exact h.synced_le l n g hl
  · intro u n hu hf
    simp only [hneed] at hu
    exact h.need_le u n hu hf
  · intro l n g u k hl hk hf hcover
    simp only [hneed] at hk
    by_cases hlt : l = t
    · subst hlt; simp [Ghost.syncBegin, hk]
    · simp only [upd_of_ne hlt] at hl
      simp only [Ghost.syncBegin, upd_of_ne hlt] at hcover ⊢
      exact h.cover_sees l n g u k hl hk hf hcover
  · intro u n hu hf hp
    simp only [hneed] at hu
    exact h.platter_covers u n hu hf hp
  · intro l n g hl hf
    by_cases hlt : l = t
    · subst hlt
      have hng : need = n ∧ target = g := by simpa using hl
      obtain ⟨rfl, rfl⟩ := hng
      exact h.leads_own l need target (Or.inl ht) hf
    · simp only [upd_of_ne hlt] at hl
      exact h.leads_own l n g hl hf
  · intro u n hu
    by_cases hut : u = t
    · subst hut; simp at hu
    · simp only [upd_of_ne hut] at hu
      exact h.answered u n hu

/-- A sync comes back without an error: what it began with is on the platter. -/
theorem Inv.syncOk {s : Sys} (h : Inv s) {t : Thread} {need target : ℕ}
    (ht : s.pc t = .syncing need target) :
    Inv { s with ghost := s.ghost.syncOk t } where
  durable_le := le_max_of_le_left h.durable_le
  platter_le := max_le h.platter_le (h.cover_ge t need target ht).2
  target_le := h.target_le
  cover_ge := h.cover_ge
  synced_le l n g hl := le_max_of_le_left (h.synced_le l n g hl)
  need_le := h.need_le
  cover_sees := h.cover_sees
  platter_covers u n hu hf hp := by
    rcases le_max_iff.1 hp with hold | hcover
    · simp [Ghost.syncOk, h.platter_covers u n hu hf hold]
    · simp [Ghost.syncOk, h.cover_sees t need target u n ht hu hf hcover]
  leads_own := h.leads_own
  answered u n hu := by
    rcases h.answered u n hu with hc | hf
    · exact Or.inl (by simp [Ghost.syncOk, hc])
    · exact Or.inr hf

theorem Inv.syncEnd {s : Sys} (h : Inv s) {t : Thread} {need target : ℕ}
    (ok : Bool) (ht : s.pc t = .syncing need target) :
    Inv { s with pc := upd s.pc t (.synced need target ok),
                 ghost := if ok then s.ghost.syncOk t else s.ghost } := by
  have hneed : (s.pc t).need? = some need := by rw [ht]; rfl
  have htarget : target ≤ s.marks.staged := h.target_le t target (by rw [ht]; rfl)
  have hown := h.leads_own t need target (Or.inr (Or.inl ht))
  cases ok with
  | false =>
      refine h.move rfl h.durable_le (by rw [hneed]; rfl) (by simp [Pc.inFlight?])
        (by simp) (by simp) ?_ (by simp)
      intro n g hp hf
      have hng : need = n ∧ target = g := by simpa using hp
      exact hng.1 ▸ hng.2 ▸ hown hf
  | true =>
      -- the sync is recorded first, then the thread moves past it
      have hok := h.syncOk ht
      have hput : target ≤ (s.ghost.syncOk t).platter :=
        le_max_of_le_right (h.cover_ge t need target ht).1
      refine hok.move rfl hok.durable_le (by rw [hneed]; rfl) ?_ (by simp) ?_ ?_
        (by simp)
      · intro g hg
        have hgt : target = g := by simpa [Pc.inFlight?] using hg
        exact hgt ▸ htarget
      · intro n g hp
        have hng : need = n ∧ target = g := by simpa using hp
        exact hng.2 ▸ hput
      · intro n g hp hf
        have hng : need = n ∧ target = g := by simpa using hp
        exact hng.1 ▸ hng.2 ▸ hown hf

/-- A leader writes down what its sync did and returns. -/
theorem Inv.finish {s : Sys} (h : Inv s) {t : Thread} {need target : ℕ}
    {ok : Bool} (took : ℕ) (ht : s.pc t = .synced need target ok) :
    Inv { s with marks := s.marks.finish target ok took,
                 pc := upd s.pc t (.returned need ok) } := by
  have hneed : (s.pc t).need? = some need := by rw [ht]; rfl
  have hdurable : (s.marks.finish target ok took).durable ≤ s.ghost.platter := by
    cases ok with
    | false => simpa using h.durable_le
    | true => simpa using ⟨h.durable_le, h.synced_le t need target ht⟩
  refine h.move (by simp) hdurable (by rw [hneed]; rfl) (by simp [Pc.inFlight?])
    (by simp) (by simp) (by simp) ?_
  intro n hp
  obtain ⟨rfl, rfl⟩ : need = n ∧ ok = true := by simpa using hp
  by_contra hcon
  simp only [not_or, Bool.not_eq_true] at hcon
  have hown := h.leads_own t need target (Or.inr (Or.inr ⟨true, ht⟩)) hcon.2
  have hcov := h.platter_covers t need hneed hcon.2
    (hown.trans (h.synced_le t need target ht))
  simp [hcon.1] at hcov

/-- A thread takes the lock again, after `call` or a wake up. -/
theorem Inv.top {s : Sys} (h : Inv s) {t : Thread} {need : ℕ} (counted : Bool)
    (hneed : (s.pc t).need? = some need) :
    Inv { s with pc := upd s.pc t (.top need counted) } :=
  h.move rfl h.durable_le (by rw [hneed]; rfl) (by simp [Pc.inFlight?]) (by simp)
    (by simp) (by simp) (by simp)

/-- One step whose cuts stay behind the leaders in flight keeps the invariant. -/
theorem Inv.step {s u : Sys} {a : Act} (h : Inv s) (hok : CutsBehindLeaders s a)
    (hu : step s a = some u) : Inv u := by
  cases a with
  | stage t len =>
      simp only [Wal.step] at hu
      split at hu <;> (try split at hu) <;> cases hu
      · rename_i hpc hlen
        exact h.stage (Or.inl hpc) hlen
      · rename_i n ok hpc hlen
        exact h.stage (Or.inr ⟨n, ok, hpc⟩) hlen
  | spill len =>
      cases hu
      exact h.spill len
  | reset len synced =>
      simp only [Wal.step] at hu
      split at hu <;> cases hu
      exact h.reset synced hok
  | call t =>
      simp only [Wal.step] at hu
      split at hu <;> cases hu
      rename_i need hpc
      exact h.top false (by rw [hpc]; rfl)
  | turn t =>
      simp only [Wal.step] at hu
      split at hu <;> cases hu
      rename_i need counted hpc
      exact h.turn hpc
  | wake t =>
      simp only [Wal.step] at hu
      split at hu <;> cases hu
      rename_i need hpc
      exact h.top true (by rw [hpc]; rfl)
  | gathered t =>
      simp only [Wal.step] at hu
      split at hu <;> cases hu
      rename_i need hpc
      exact h.gathered hpc
  | syncBegin t =>
      simp only [Wal.step] at hu
      split at hu <;> cases hu
      rename_i need target hpc
      exact h.syncBegin hpc
  | syncEnd t ok =>
      simp only [Wal.step] at hu
      split at hu <;> cases hu
      rename_i need target hpc
      exact h.syncEnd ok hpc
  | finish t took =>
      simp only [Wal.step] at hu
      split at hu <;> cases hu
      rename_i need target ok hpc
      exact h.finish took hpc

theorem Inv.safe {s : Sys} (h : Inv s) : Safe s :=
  ⟨h.durable_le.trans h.platter_le, h.durable_le, h.answered⟩

/-- Every state of a run whose cuts stay behind the leaders in flight is safe. -/
theorem groupCommit_safe {len : ℕ} {s : Sys}
    (h : Lib.Run step CutsBehindLeaders (Sys.new len) s) : Safe s :=
  (h.invariant (fun _ _ _ hi hok hu => hi.step hok hu) (inv_new len)).safe

/-- Thread 0 leads a sync begun after thread 1 staged a commit past its target;
thread 1 sleeps through it and then leads its own. -/
def stragglerLeads : List Act :=
  [.stage 0 100, .call 0, .turn 0, .stage 1 160, .call 1, .syncBegin 0, .turn 1,
    .syncEnd 0 true, .finish 0 1, .wake 1, .turn 1, .syncBegin 1,
    .syncEnd 1 true, .finish 1 1]

/-- `stragglerLeads` cuts nothing, and its second call returns covered. -/
theorem groupCommit_safe_stragglerLeads :
    ∃ s, Lib.Run step CutsBehindLeaders (Sys.new 0) s ∧
      s.pc 1 = .returned 160 true ∧ Safe s := by
  have hrun : ((Lib.runAll step (Sys.new 0) stragglerLeads).map fun s => s.pc 1) =
      some (.returned 160 true) := by decide
  obtain ⟨s, hs, hpc⟩ := Option.map_eq_some_iff.1 hrun
  have hrun' : Lib.Run step CutsBehindLeaders (Sys.new 0) s := by
    refine Lib.Run.of_runAll hs ?_
    simp [stragglerLeads, CutsBehindLeaders]
  exact ⟨s, hrun', hpc, groupCommit_safe hrun'⟩

/-- Thread 0 leads a sync through byte 100, the log is cut to nothing while that
sync runs, thread 1 stages a commit that ends at byte 60 of the new log, and the
sync of thread 0 comes back. -/
def cutUnderLeader : List Act :=
  [.stage 0 100, .call 0, .turn 0, .syncBegin 0, .reset 0 false, .stage 1 60,
    .call 1, .syncEnd 0 true, .finish 0 1, .turn 1]

/-- The run of `cutUnderLeader` answers thread 1 with `Ok` though no sync began
after its bytes were written and nothing was cut since. -/
theorem not_groupCommit_safe :
    ¬ ∀ (len : ℕ) (s : Sys),
      Lib.Run step Lib.anyAction (Sys.new len) s → Safe s := by
  intro h
  have hrun : ((Lib.runAll step (Sys.new 0) cutUnderLeader).map fun s =>
      (s.pc 1, s.ghost.covered 1, s.ghost.folded 1)) =
        some (.returned 60 true, false, false) := by decide
  obtain ⟨s, hs, heq⟩ := Option.map_eq_some_iff.1 hrun
  simp only [Prod.mk.injEq] at heq
  obtain ⟨-, -, hanswered⟩ := h 0 s (Lib.Run.of_runAll hs fun _ _ _ => trivial)
  have hfalse := hanswered 1 60 heq.1
  rw [heq.2.1, heq.2.2] at hfalse
  simp at hfalse

end Zu.Wal
