import Zu.Shared.Durable

/-!
# What the readers are shown

`Calls` says what a session relies on between two of its sections, and `Inv` that the
write side is in order and every session can rely on it. The run lemma follows from one
lemma for each section, and a run that empties the log under a sync in flight shows
that the condition is needed.
-/

namespace Zu.Shared

open Wal (upd upd_self upd_of_ne Staged Behind)

/-- Whether what is pending is about to be replaced. -/
def Phase.capturing : Phase → Bool
  | .staging _ | .flagging _ _ => true
  | _ => false

/-- Whether a session in this phase carries nothing of its own. -/
def Phase.plain : Phase → Bool
  | .publishing _ | .flagging _ _ | .waiting _ _ _ _ => false
  | _ => true

namespace Sys

/-- What session `i` relies on between two sections. -/
structure Calls (s : Sys) (i : ℕ) : Prop where
  holds : (s.sessions i).phase.holding = true → s.holder = some i
  /-- A state captured while the log owed nothing. -/
  pending : ∀ p, (s.sessions i).pending = some (p, true) → ∀ c ∈ p.changes, s.OnPlatter c
  /-- The sync it owes covers the state it has captured. -/
  debt : (s.sessions i).phase.capturing = false → ∀ p flag g d,
    (s.sessions i).pending = some (p, flag) → (s.sessions i).owed = some (g, d) →
      ∀ c ∈ p.changes, s.Due g d c
  waits : ∀ ok p flag g d, (s.sessions i).phase = .waiting ok (some (p, flag)) g d →
    ∀ c ∈ p.changes, s.Due g d c
  publishing : ∀ p, (s.sessions i).phase = .publishing p → ∀ c ∈ s.side.changes, s.OnPlatter c
  flagging : ∀ p captured, (s.sessions i).phase = .flagging p captured →
    ∀ c ∈ captured.changes, c ∈ s.side.changes
  /-- The sync it owes covers the side it holds. -/
  owes : s.holder = some i → ∀ g d, (s.sessions i).owed = some (g, d) →
    ∀ c ∈ s.side.changes, s.Due g d c

structure Inv (s : Sys) : Prop where
  core : Core s
  calls : ∀ i, s.Calls i

/-- A session that did not move relies on what it relied on. -/
theorem Calls.frame {s u : Sys} {j : ℕ} (h : s.Calls j) (hg : Grows s u)
    (hsess : u.sessions j = s.sessions j) (hholder : u.holder = some j ↔ s.holder = some j)
    (hside : s.holder = some j → u.side.changes = s.side.changes) : u.Calls j where
  holds := by
    rw [hsess, hholder]
    exact h.holds
  pending p hp c hc := hg.onPlatter c (h.pending p (hsess ▸ hp) c hc)
  debt hcap p flag g d hp ho c hc :=
    hg.due (h.debt (hsess ▸ hcap) p flag g d (hsess ▸ hp) (hsess ▸ ho) c hc)
  waits ok p flag g d hp c hc := hg.due (h.waits ok p flag g d (hsess ▸ hp) c hc)
  publishing p hp c hc := by
    rw [hsess] at hp
    have hold := h.holds (by rw [hp]; rfl)
    rw [hside hold] at hc
    exact hg.onPlatter c (h.publishing p hp c hc)
  flagging p captured hp c hc := by
    rw [hsess] at hp
    rw [hside (h.holds (by rw [hp]; rfl))]
    exact h.flagging p captured hp c hc
  owes hold g d ho c hc := by
    have hold' := hholder.1 hold
    rw [hside hold'] at hc
    exact hg.due (h.owes hold' g d (hsess ▸ ho) c hc)

theorem Calls.moved {s u : Sys} {i : ℕ} (h : s.Calls i) (hg : Grows s u)
    (hpending : (u.sessions i).pending = (s.sessions i).pending)
    (hplain : (u.sessions i).phase.plain = true)
    (hhold : (u.sessions i).phase.holding = true → u.holder = some i)
    (hdebt : (u.sessions i).phase.capturing = true ∨
      ((s.sessions i).phase.capturing = false ∧ (u.sessions i).owed = (s.sessions i).owed))
    (howes : u.holder = some i → ∀ g d, (u.sessions i).owed = some (g, d) →
      ∀ c ∈ u.side.changes, u.Due g d c) : u.Calls i where
  holds := hhold
  pending p hp c hc := hg.onPlatter c (h.pending p (hpending ▸ hp) c hc)
  debt hcap p flag g d hp ho c hc := by
    rcases hdebt with hcap' | ⟨hcap', howed⟩
    · rw [hcap] at hcap'
      cases hcap'
    · exact hg.due (h.debt hcap' p flag g d (hpending ▸ hp) (howed ▸ ho) c hc)
  waits ok p flag g d hp := by
    rw [hp] at hplain
    cases hplain
  publishing p hp := by
    rw [hp] at hplain
    cases hplain
  flagging p captured hp := by
    rw [hp] at hplain
    cases hplain
  owes := howes

theorem Inv.of_session {s u : Sys} {i : ℕ} (h : Inv s) (hcore : Core u) (hg : Grows s u)
    (hsess : ∀ j, j ≠ i → u.sessions j = s.sessions j)
    (hholder : ∀ j, j ≠ i → (u.holder = some j ↔ s.holder = some j))
    (hside : u.side.changes = s.side.changes ∨ s.holder = some i) (hi : u.Calls i) : Inv u where
  core := hcore
  calls j := by
    by_cases hj : j = i
    · rw [hj]
      exact hi
    · refine (h.calls j).frame hg (hsess j hj) (hholder j hj) fun hold => ?_
      rcases hside with hside | hi'
      · exact hside
      · rw [hi'] at hold
        exact absurd (Option.some.inj hold).symm hj

/-- No log is emptied under a sync in flight; a side is taken by a session that owes
nothing; and a writer is opened again after an undo, unless its log owed nothing. -/
def Cond (s : Sys) : Act → Prop
  | .write _ .sealed _ | .foldPatches _ => s.CutsBehind
  | .enter i _ _ => s.holder = none → (s.sessions i).owed = none
  | .rollback _ reopened => reopened = false → s.settled = true
  | .settle i out ended => ended = false → ∀ held ok,
      (s.sessions i).phase = .reached (.body held ok) → held.savepoint = true →
        (out && ok) = false → s.settled = true
  | _ => True

@[simp] theorem goto_side (s : Sys) (i : ℕ) (p : Phase) : (s.goto i p).side = s.side := rfl

@[simp] theorem goto_holder (s : Sys) (i : ℕ) (p : Phase) : (s.goto i p).holder = s.holder :=
  rfl

@[simp] theorem goto_self (s : Sys) (i : ℕ) (p : Phase) :
    (s.goto i p).sessions i = { s.sessions i with phase := p } := upd_self _ _ _

theorem on_of_ne (s : Sys) {i j : ℕ} (f : Session → Session) (h : j ≠ i) :
    (s.on i f).sessions j = s.sessions j := upd_of_ne h

/-- A change of one session leaves the rest alone. -/
theorem Core.regroups_on {s : Sys} (h : Core s) (i : ℕ) (f : Session → Session) :
    Regroups s (s.on i f) :=
  h.regroups_same rfl rfl rfl rfl rfl rfl fun _ => Or.inl

/-- A session moves after the rest of a section: it goes to a phase with nothing of
its own. -/
theorem Inv.on {s u : Sys} {i : ℕ} (h : Inv s) (hcore : Core u) (hg : Grows s u)
    (hsess : ∀ j, j ≠ i → u.sessions j = s.sessions j)
    (hholder : ∀ j, j ≠ i → (u.holder = some j ↔ s.holder = some j))
    (hside : u.side.changes = s.side.changes ∨ s.holder = some i)
    (f : Session → Session) (hpending : (f (u.sessions i)).pending = (s.sessions i).pending)
    (hplain : (f (u.sessions i)).phase.plain = true)
    (hhold : (f (u.sessions i)).phase.holding = true → u.holder = some i)
    (hdebt : (f (u.sessions i)).phase.capturing = true ∨
      ((s.sessions i).phase.capturing = false ∧
        (f (u.sessions i)).owed = (s.sessions i).owed))
    (howes : u.holder = some i → ∀ g d, (f (u.sessions i)).owed = some (g, d) →
      ∀ c ∈ u.side.changes, u.Due g d c) : Inv (u.on i f) := by
  have hon := hcore.regroups_on i f
  have hself : (u.on i f).sessions i = f (u.sessions i) := upd_self _ _ _
  refine h.of_session (hcore.regroups hon) (hg.trans hon.grows)
    (fun j hj => (on_of_ne u f hj).trans (hsess j hj)) hholder hside ?_
  refine (h.calls i).moved (hg.trans hon.grows) ?_ ?_ ?_ ?_ ?_
  · rw [hself]
    exact hpending
  · rw [hself]
    exact hplain
  · rw [hself]
    exact hhold
  · rw [hself]
    exact hdebt
  · intro hold g d ho c hc
    rw [hself] at ho
    exact hon.grows.due (howes hold g d ho c hc)

/-- Only session `i` changes, and not in what it is owed or has captured. -/
theorem Inv.self {s : Sys} (h : Inv s) {i : ℕ} (f : Session → Session)
    (hpending : (f (s.sessions i)).pending = (s.sessions i).pending)
    (howed : (f (s.sessions i)).owed = (s.sessions i).owed)
    (hplain : (f (s.sessions i)).phase.plain = true)
    (hhold : (f (s.sessions i)).phase.holding = true → s.holder = some i)
    (hcap : (f (s.sessions i)).phase.capturing = true ∨
      (s.sessions i).phase.capturing = false) : Inv (s.on i f) :=
  h.on h.core (Grows.refl s) (fun _ _ => rfl) (fun _ _ => Iff.rfl) (Or.inl rfl) f hpending
    hplain hhold (hcap.imp_right fun hc => ⟨hc, howed⟩)
    fun hold g d ho => (h.calls i).owes hold g d (howed ▸ ho)

theorem follow_eq (s : Sys) (i : ℕ) (ok : Bool) :
    s.follow i ok = s ∨ ∃ header patches seen, s.follow i ok =
      s.on i fun se => { se with header, patches, seen } := by
  have hon : ∀ header patches seen,
      (s.on i fun se => { se with
        seen, header, patches := if ok then patches else se.patches }) =
      s.on i fun se => { se with
        header, patches := if ok then patches else (s.sessions i).patches, seen } :=
    fun _ _ _ => rfl
  simp only [follow]
  split
  · exact Or.inl rfl
  · rename_i header patches _
    exact Or.inr ⟨header, if ok then patches else (s.sessions i).patches, s.published.version,
      hon header patches _⟩

theorem Inv.follow {s : Sys} (h : Inv s) {i : ℕ} (ok : Bool)
    (hplain : (s.sessions i).phase.plain = true)
    (hcap : (s.sessions i).phase.capturing = false) : Inv (s.follow i ok) := by
  rcases follow_eq s i ok with hs | ⟨header, patches, seen, hs⟩ <;> rw [hs]
  · exact h
  · exact h.self _ rfl rfl hplain (h.calls i).holds (Or.inr hcap)

theorem follow_frame (s : Sys) (i : ℕ) (ok : Bool) :
    (s.follow i ok).holder = s.holder ∧
      ((s.follow i ok).sessions i).phase = (s.sessions i).phase := by
  rcases follow_eq s i ok with hs | ⟨header, patches, seen, hs⟩ <;> rw [hs]
  · exact ⟨rfl, rfl⟩
  · refine ⟨rfl, ?_⟩
    change (upd s.sessions i _ i).phase = _
    rw [upd_self]

theorem Inv.goto {s : Sys} (h : Inv s) {i : ℕ} {p : Phase} (hplain : p.plain = true)
    (hhold : p.holding = true → s.holder = some i)
    (hcap : p.capturing = true ∨ (s.sessions i).phase.capturing = false) : Inv (s.goto i p) :=
  h.self _ rfl rfl hplain hhold hcap

theorem Inv.answer {s : Sys} (h : Inv s) {i : ℕ} (ok : Bool)
    (hcap : (s.sessions i).phase.capturing = false) : Inv (s.answer i ok) :=
  h.self _ rfl rfl rfl (fun hh => by cases hh) (Or.inr hcap)

theorem cutsBehindLeaders_of_quiet {l : Wal.Sys} {a : Wal.Act} (ha : a.quiet = true) :
    Wal.CutsBehindLeaders l a := by
  cases a with
  | reset len synced => cases ha
  | _ => trivial

theorem Core.log {s : Sys} (h : Core s) {gen : ℕ} {a : Wal.Act} {l : Wal.Sys}
    (ha : a.quiet = true) (hl : Wal.step (s.logs gen) a = some l) :
    Core { s with logs := upd s.logs gen l } ∧
      Grows s { s with logs := upd s.logs gen l } := by
  have hkept := Wal.step_kept ha hl
  have hcov : ∀ g c, (s.logs g).ghost.covered c = true →
      (upd s.logs gen l g).ghost.covered c = true := by
    intro g c hc
    by_cases hg : g = gen
    · subst hg
      rw [upd_self]
      exact hkept.covered c hc
    · rw [upd_of_ne hg]
      exact hc
  have hstaged : ∀ g c, Staged (upd s.logs gen l g) c ↔ Staged (s.logs g) c := by
    intro g c
    by_cases hg : g = gen
    · subst hg
      rw [upd_self, Staged, Staged, hkept.need]
    · rw [upd_of_ne hg]
  have hfolded : ∀ g, (upd s.logs gen l g).ghost.folded = (s.logs g).ghost.folded := by
    intro g
    by_cases hg : g = gen
    · subst hg
      rw [upd_self, hkept.folded]
    · rw [upd_of_ne hg]
  generalize hu : ({ s with logs := upd s.logs gen l } : Sys) = u
  have hlogs : u.logs = upd s.logs gen l := by rw [← hu]
  have hside : u.side = s.side := by rw [← hu]
  have hopen : u.opening = s.opening := by rw [← hu]
  have hplatter : ∀ c, s.OnPlatter c → u.OnPlatter c := fun c hc =>
    onPlatter_of_logs hopen (fun d hd => by rw [← hu]; exact hd)
      (fun g d hd => by rw [hlogs]; exact hcov g d hd) hc
  have htracked : ∀ c, u.Tracked c ↔ s.Tracked c := by
    intro c
    simp only [Tracked, hside, hopen, hlogs, hstaged]
  refine ⟨⟨?_, fun f hf => ?_⟩, hplatter, ?_⟩
  · exact
    { made := by rw [← hu]; exact h.made
      opened := by rw [← hu]; exact h.opened
      gen_lt := by rw [← hu]; exact h.gen_lt
      wal := fun w hw => by
        rw [hside] at hw
        have hwal := h.wal w hw
        rw [hlogs]
        by_cases hg : w.gen = gen
        · rw [hg, upd_self]
          rw [hg] at hwal
          exact hwal.step (cutsBehindLeaders_of_quiet ha) hl
        · rw [upd_of_ne hg]
          exact hwal
      cut := fun w hw c ho hf => by
        rw [hside] at hw
        rw [hopen] at ho
        rw [hlogs, hfolded] at hf
        rw [← hu]
        exact h.cut w hw c ho hf
      lt := by rw [← hu]; exact h.lt
      held := fun c hc => by
        rw [hside] at hc
        exact (h.safe hc).imp (hplatter c) fun ht => Or.inl ((htracked c).2 ht)
      logged := by rw [hside]; exact h.logged
      tracked := fun c hc => by
        rw [hside, show u.sealed = s.sealed by rw [← hu]]
        exact h.tracked c ((htracked c).1 hc)
      below := by rw [hside]; exact h.below
      belowSaved := by rw [hside]; exact h.belowSaved
      walSeq_le := by rw [hside]; exact h.walSeq_le
      saved_le := by rw [hside]; exact h.saved_le
      shown := fun c hc => hplatter c (h.shown c (by rw [← hu] at hc; exact hc)) }
  · rw [hside] at hf
    exact (h.log_safe f hf).imp (hplatter _) (htracked _).2
  · rintro g d c ⟨w, hw, rfl, hc, hd, hs, hb⟩
    refine Or.inr ⟨w, hside ▸ hw, rfl, by rw [hopen]; exact hc, by rw [hopen]; exact hd,
      by rw [hlogs]; exact (hstaged _ _).2 hs, ?_⟩
    rw [hlogs]
    by_cases hg : w.gen = gen
    · rw [hg, upd_self]
      rw [hg] at hs hb
      exact hb.step hs ha hl
    · rw [upd_of_ne hg]
      exact hb

/-! ### One lemma for each section -/

theorem Inv.log {s : Sys} (h : Inv s) {gen : ℕ} {a : Wal.Act} {l : Wal.Sys}
    (ha : a.quiet = true) (hl : Wal.step (s.logs gen) a = some l) :
    Inv { s with logs := upd s.logs gen l } := by
  obtain ⟨hcore, hgrows⟩ := h.core.log ha hl
  exact ⟨hcore, fun i => (h.calls i).frame hgrows rfl Iff.rfl fun _ => rfl⟩

theorem Inv.endTxn {s : Sys} (h : Inv s) {i : ℕ} (hidle : (s.sessions i).phase = .idle) :
    Inv (s.on i fun se => { se with txn := false }) ∧
      ((s.on i fun se => { se with txn := false }).sessions i).phase = .idle := by
  have hphase : ((s.on i fun se => { se with txn := false }).sessions i).phase = .idle := by
    change (upd s.sessions i _ i).phase = _
    rw [upd_self]
    exact hidle
  exact ⟨h.self _ rfl rfl (by simp [hidle, Phase.plain]) (fun hh => by simp [hidle, Phase.holding] at hh)
    (Or.inr (by rw [hidle]; rfl)), hphase⟩

theorem changes_release (s : Sys) (ended : Bool) :
    (s.release ended).side.changes = s.side.changes := by
  simp [release, WriteSide.changes, WriteSide.patches, releaseSavepoint_db]

theorem leave_frame (s : Sys) (taken : Bool) :
    (s.leave taken).side = s.side ∧ (s.leave taken).sessions = s.sessions ∧
      ((s.leave taken).holder = s.holder ∨ (s.leave taken).holder = none) := by
  rw [leave]
  split_ifs
  · exact ⟨rfl, rfl, Or.inr rfl⟩
  · exact ⟨rfl, rfl, Or.inl rfl⟩

theorem Core.leave {s : Sys} (h : Core s) (taken : Bool) : Regroups s (s.leave taken) := by
  rw [Sys.leave]
  split_ifs
  · exact h.regroups_same rfl rfl rfl rfl rfl rfl fun _ => Or.inl
  · exact h.regroups_same rfl rfl rfl rfl rfl rfl fun _ => Or.inl

/-- The session that holds the side may give it back and go on. -/
theorem Inv.leaves {s u : Sys} (h : Inv s) {i : ℕ} (hr : Regroups s u)
    (hchanges : u.side.changes = s.side.changes) (hsess : u.sessions = s.sessions)
    (hholder : u.holder = s.holder) (hi : s.holder = some i) (taken : Bool)
    (f : Session → Session) (hpending : (f (s.sessions i)).pending = (s.sessions i).pending)
    (howed : (f (s.sessions i)).owed = (s.sessions i).owed)
    (hplain : (f (s.sessions i)).phase.plain = true)
    (hhold : (f (s.sessions i)).phase.holding = false)
    (hcap : (s.sessions i).phase.capturing = false) : Inv ((u.leave taken).on i f) := by
  obtain ⟨hside, hsess', hholder'⟩ := leave_frame u taken
  have hl := (h.core.regroups hr).leave taken
  refine h.on ((h.core.regroups hr).regroups hl) (hr.grows.trans hl.grows)
    (fun j _ => by rw [hsess', hsess]) (fun j hj => ?_) (Or.inr hi) f ?_ ?_ ?_ ?_ ?_
  · have hne : s.holder ≠ some j := by
      rw [hi]
      exact fun heq => hj (Option.some.inj heq).symm
    rcases hholder' with hh | hh <;> rw [hh]
    · rw [hholder]
    · exact ⟨fun heq => (by cases heq), fun heq => absurd heq hne⟩
  · rw [hsess', hsess]
    exact hpending
  · rw [hsess', hsess]
    exact hplain
  · rw [hsess', hsess, hhold]
    exact fun hh => by cases hh
  · rw [hsess', hsess]
    exact Or.inr ⟨hcap, howed⟩
  · rw [hsess', hsess, hside, hchanges, howed]
    intro _ g d ho c hc
    exact hl.grows.due (hr.grows.due ((h.calls i).owes hi g d ho c hc))

theorem Inv.commit {s : Sys} (h : Inv s) {i : ℕ} (ended : Bool)
    (hidle : (s.sessions i).phase = .idle) : Inv (s.commit i ended) := by
  rw [Sys.commit]
  by_cases htxn : (s.sessions i).txn = true
  · rw [if_pos htxn]
    obtain ⟨ht, hphase⟩ := h.endTxn hidle
    generalize (s.on i fun se => { se with txn := false }) = t at *
    simp only
    split_ifs with hheld
    · exact ht.leaves (ht.core.regroups_release ended) (changes_release t ended) rfl rfl hheld.1
        ended _ rfl rfl rfl rfl (by rw [hphase]; rfl)
    · exact ht.answer true (by rw [hphase]; rfl)
  · rw [if_neg htxn]
    exact h.answer false (by rw [hidle]; rfl)

theorem discardAbove_sessions (s : Sys) (floor : ℕ) :
    (s.discardAbove floor).sessions = s.sessions ∧
      (s.discardAbove floor).holder = s.holder := by
  rw [discardAbove]
  cases s.side.writer with
  | none => exact ⟨rfl, rfl⟩
  | some w =>
      simp only
      split_ifs <;> exact ⟨rfl, rfl⟩

theorem rollbackSavepoint_sessions (s : Sys) (saved : Savepoint) :
    (s.rollbackSavepoint saved).sessions = s.sessions ∧
      (s.rollbackSavepoint saved).holder = s.holder := by
  rw [rollbackSavepoint]
  split_ifs <;> exact ⟨rfl, rfl⟩

theorem undo_frame (s : Sys) (reopened : Bool) :
    (s.undo reopened).sessions = s.sessions ∧ (s.undo reopened).holder = s.holder := by
  rw [undo]
  cases s.side.file.savepoint with
  | none => exact ⟨rfl, rfl⟩
  | some saved =>
      obtain ⟨hs, hh⟩ := discardAbove_sessions s saved.logFloor
      obtain ⟨hs', hh'⟩ := rollbackSavepoint_sessions (s.discardAbove saved.logFloor) saved
      simp only
      split_ifs
      · obtain ⟨hs'', hh'', -⟩ :=
          openWriter_frame ((s.discardAbove saved.logFloor).rollbackSavepoint saved)
        exact ⟨hs''.trans (hs'.trans hs), hh''.trans (hh'.trans hh)⟩
      · exact ⟨hs'.trans hs, hh'.trans hh⟩

/-- A session that undoes what it wrote goes on. -/
theorem Inv.undoes {s : Sys} (h : Inv s) {i : ℕ} {reopened : Bool}
    (hre : reopened = false → s.settled = true) (hin : s.side.file.inSavepoint = true)
    (hi : s.holder = some i) (f : Session → Session)
    (hpending : (f (s.sessions i)).pending = (s.sessions i).pending)
    (howed : (f (s.sessions i)).owed = (s.sessions i).owed)
    (hplain : (f (s.sessions i)).phase.plain = true)
    (hcap : (s.sessions i).phase.capturing = false) : Inv ((s.undo reopened).on i f) := by
  obtain ⟨hcore, hgrows, hall⟩ := h.core.undo hre hin
  obtain ⟨hsess, hholder⟩ := undo_frame s reopened
  refine h.on hcore hgrows (fun j _ => by rw [hsess]) (fun j _ => by rw [hholder]) (Or.inr hi)
    f ?_ ?_ (fun _ => hholder.trans hi) ?_ ?_
  · rw [hsess]
    exact hpending
  · rw [hsess]
    exact hplain
  · rw [hsess]
    exact Or.inr ⟨hcap, howed⟩
  · intro _ g d _ c hc
    exact Or.inl (hall c (WriteSide.holds_of_changes hc))

theorem Inv.rollback {s : Sys} (h : Inv s) {i : ℕ} {reopened : Bool}
    (hre : reopened = false → s.settled = true) (hidle : (s.sessions i).phase = .idle) :
    Inv (s.rollback i reopened) := by
  rw [Sys.rollback]
  by_cases htxn : (s.sessions i).txn = true
  · rw [if_pos htxn]
    obtain ⟨ht, hphase⟩ := h.endTxn hidle
    have hre' : reopened = false →
        (s.on i fun se => { se with txn := false }).settled = true := hre
    generalize (s.on i fun se => { se with txn := false }) = t at *
    simp only
    split_ifs with hheld
    · exact ht.undoes hre' hheld.2 hheld.1 _ rfl rfl rfl (by rw [hphase]; rfl)
    · exact ht.undoes hre' hheld.2 hheld.1 _ rfl rfl rfl (by rw [hphase]; rfl)
    · exact ht.answer true (by rw [hphase]; rfl)
  · rw [if_neg htxn]
    exact h.answer false (by rw [hidle]; rfl)

theorem Inv.takes {s u : Sys} (h : Inv s) {i : ℕ} (hcore : Core u) (hg : Grows s u)
    (hsess : u.sessions = s.sessions) (hnone : s.holder = none) (hholder : u.holder = some i)
    (howed : (s.sessions i).owed = none) (hidle : (s.sessions i).phase = .idle) (p : Point) :
    Inv (u.goto i (.sharing p)) := by
  refine ⟨hcore.regroups (hcore.regroups_on i _), fun j => ?_⟩
  have hon := (hcore.regroups_on i fun se => { se with phase := .sharing p }).grows
  by_cases hj : j = i
  · subst hj
    refine (h.calls j).moved (hg.trans hon) ?_ ?_ (fun _ => hholder) (Or.inr ?_) ?_
    · rw [goto_self, hsess]
    · rw [goto_self]
      rfl
    · rw [goto_self, hsess]
      exact ⟨by rw [hidle]; rfl, rfl⟩
    · intro _ g d ho
      rw [goto_self, hsess] at ho
      rw [howed] at ho
      cases ho
  · refine (h.calls j).frame (hg.trans hon) ?_ ?_ ?_
    · rw [Sys.goto, on_of_ne _ _ hj, hsess]
    · rw [goto_holder, hholder, hnone]
      exact ⟨fun heq => absurd (Option.some.inj heq).symm hj, fun heq => by cases heq⟩
    · rw [hnone]
      exact fun heq => by cases heq

theorem Inv.enter {s u : Sys} (h : Inv s) {i : ℕ} {call : Call} {opened : Bool}
    (howed : s.holder = none → (s.sessions i).owed = none)
    (hidle : (s.sessions i).phase = .idle) (hu : s.enter i call opened = some u) : Inv u := by
  have hcap : (s.sessions i).phase.capturing = false := by rw [hidle]; rfl
  rw [Sys.enter] at hu
  cases hholder : s.holder with
  | some j =>
      rw [hholder] at hu
      simp only at hu
      split_ifs at hu with hj
      cases hu
      exact h.goto rfl (fun _ => by rw [hholder, hj]) (Or.inr hcap)
  | none =>
      rw [hholder] at hu
      simp only at hu
      have hsame : Regroups s { s with holder := some i } :=
        h.core.regroups_same rfl rfl rfl rfl rfl rfl fun _ => Or.inl
      split_ifs at hu with hw hopened <;> cases hu
      · exact h.takes (h.core.regroups hsame) hsame.grows rfl hholder rfl (howed hholder) hidle _
      · have hnone : s.side.writer = none := by simpa using hw
        obtain ⟨hcore, hmono, -, -⟩ := h.core.openWriter hnone
        obtain ⟨hsess, -, -⟩ := openWriter_frame s
        have hgrows : Grows s s.openWriter := by
          refine ⟨hmono, ?_⟩
          rintro g d c ⟨w, hw', -⟩
          rw [hnone] at hw'
          cases hw'
        have hopen : Regroups s.openWriter { s.openWriter with holder := some i } :=
          hcore.regroups_same rfl rfl rfl rfl rfl rfl fun _ => Or.inl
        exact h.takes (hcore.regroups hopen) (hgrows.trans hopen.grows) hsess hholder rfl
          (howed hholder) hidle _
      · exact h.answer false hcap

theorem Inv.marks {s u : Sys} (h : Inv s) {i : ℕ} (hu : step s (.marks i) = some u) : Inv u := by
  simp only [step] at hu
  split at hu <;> cases hu
  · rename_i p hphase
    have hold := (h.calls i).holds (by rw [hphase]; rfl)
    have hcap : (s.sessions i).phase.capturing = false := by rw [hphase]; rfl
    split_ifs with hsettled
    · have hon := h.core.regroups_on i fun se => { se with phase := .publishing p }
      refine h.of_session (h.core.regroups hon) hon.grows (fun j hj => on_of_ne s _ hj)
        (fun _ _ => Iff.rfl) (Or.inl rfl) ?_
      have hse : (s.goto i (.publishing p)).sessions i =
          { s.sessions i with phase := .publishing p } := goto_self s i _
      have hi := h.calls i
      refine ⟨fun _ => hold, fun q hq c hc => ?_, fun _ q flag g d hq ho c hc => ?_, ?_, ?_, ?_, ?_⟩
      · rw [hse] at hq
        exact hi.pending q hq c hc
      · rw [hse] at hq ho
        exact hon.grows.due (hi.debt hcap q flag g d hq ho c hc)
      · intro ok q flag g d hq
        rw [hse] at hq
        cases hq
      · intro _ _ c hc
        exact (h.core.safe (WriteSide.holds_of_changes hc)).elim id
          (h.core.onPlatter_of_settled hsettled)
      · intro q captured hq
        rw [hse] at hq
        cases hq
      · intro _ g d ho c hc
        rw [hse] at ho
        exact hon.grows.due (hi.owes hold g d ho c hc)
    · exact h.goto rfl (fun _ => hold) (Or.inr hcap)
  · rename_i p captured hphase
    have hold := (h.calls i).holds (by rw [hphase]; rfl)
    have hi := h.calls i
    -- what it captured is still what the side shows
    have hshown : ∀ c ∈ captured.changes, c ∈ s.side.changes :=
      hi.flagging p captured hphase
    generalize hf : (fun se : Session =>
      { se with pending := some (captured, s.settled), phase := .following p }) = f
    have hon := h.core.regroups_on i f
    refine h.of_session (h.core.regroups hon) hon.grows (fun j hj => on_of_ne s _ hj)
      (fun _ _ => Iff.rfl) (Or.inl rfl) ?_
    have hse : (s.on i f).sessions i =
        { s.sessions i with pending := some (captured, s.settled), phase := .following p } := by
      rw [← hf]
      exact upd_self _ _ _
    refine ⟨fun _ => hold, fun q hq c hc => ?_, fun _ q flag g d hq ho c hc => ?_, ?_, ?_, ?_, ?_⟩
    · rw [hse] at hq
      obtain ⟨rfl, hsettled⟩ : captured = q ∧ s.settled = true := by simpa using hq
      exact (h.core.safe (WriteSide.holds_of_changes (hshown c hc))).elim id
        (h.core.onPlatter_of_settled hsettled)
    · rw [hse] at hq ho
      obtain ⟨rfl, -⟩ : captured = q ∧ s.settled = flag := by simpa using hq
      exact hon.grows.due (hi.owes hold g d ho c (hshown c hc))
    · intro ok q flag g d hq
      rw [hse] at hq
      cases hq
    · intro q hq
      rw [hse] at hq
      cases hq
    · intro q captured' hq
      rw [hse] at hq
      cases hq
    · intro _ g d ho c hc
      rw [hse] at ho
      exact hon.grows.due (hi.owes hold g d ho c hc)

theorem Core.shows {s u : Sys} (h : Core s) (hside : u.side = s.side) (hlogs : u.logs = s.logs)
    (hopen : u.opening = s.opening) (hgens : u.gens = s.gens) (hnext : u.next = s.next)
    (hsealed : u.sealed = s.sealed) (hshown : ∀ c ∈ u.published.changes, s.OnPlatter c) :
    Regroups s u :=
  h.regroups_same hside hlogs hopen hgens hnext hsealed fun c hc => Or.inr (hshown c hc)

theorem Inv.install {s u : Sys} (h : Inv s) {i : ℕ} (hu : step s (.install i) = some u) :
    Inv u := by
  simp only [step] at hu
  split at hu <;> cases hu
  rename_i p hphase
  have hold := (h.calls i).holds (by rw [hphase]; rfl)
  have hr : Regroups s s.publish :=
    h.core.shows rfl rfl rfl rfl rfl rfl ((h.calls i).publishing p hphase)
  exact h.on (h.core.regroups hr) hr.grows (fun _ _ => rfl) (fun _ _ => Iff.rfl) (Or.inl rfl)
    _ rfl rfl (fun _ => hold) (Or.inr ⟨by rw [hphase]; rfl, rfl⟩)
    fun _ g d ho c hc => hr.grows.due ((h.calls i).owes hold g d ho c hc)

theorem Inv.capture {s u : Sys} (h : Inv s) {i : ℕ} (hu : step s (.capture i) = some u) :
    Inv u := by
  simp only [step] at hu
  split at hu <;> cases hu
  rename_i p hphase
  have hi := h.calls i
  have hold := hi.holds (by rw [hphase]; rfl)
  have hr : Regroups s (s.stage.2.goto i (.flagging p s.stage.1)) :=
    h.core.regroups_same rfl rfl rfl rfl rfl rfl fun _ => Or.inl
  refine h.of_session (h.core.regroups hr) hr.grows (fun j hj => on_of_ne _ _ hj)
    (fun _ _ => Iff.rfl) (Or.inl rfl) ?_
  have hse : (s.stage.2.goto i (.flagging p s.stage.1)).sessions i =
      { s.sessions i with phase := .flagging p s.stage.1 } := goto_self _ _ _
  refine ⟨fun _ => hold, fun q hq c hc => ?_, fun hcap => ?_, ?_, ?_, ?_, ?_⟩
  · rw [hse] at hq
    exact hr.grows.onPlatter c (hi.pending q hq c hc)
  · rw [hse] at hcap
    cases hcap
  · intro ok q flag g d hq
    rw [hse] at hq
    cases hq
  · intro q hq
    rw [hse] at hq
    cases hq
  · intro q captured hq c hc
    rw [hse] at hq
    cases hq
    exact hc
  · intro _ g d ho c hc
    rw [hse] at ho
    exact hr.grows.due (hi.owes hold g d ho c hc)

/-- Wherever `sync` leaves a session, it holds the side or is idle. -/
theorem next_plain (p : Point) (ok : Bool) : (p.next ok).plain = true := by
  cases p <;> cases ok <;> rfl

theorem Inv.followed {s u : Sys} (h : Inv s) {i : ℕ} {ok : Bool}
    (hu : step s (.follow i ok) = some u) : Inv u := by
  simp only [step] at hu
  split at hu <;> cases hu
  rename_i p hphase
  have hold := (h.calls i).holds (by rw [hphase]; rfl)
  have hf := h.follow ok (by rw [hphase]; rfl) (by rw [hphase]; rfl)
  obtain ⟨hholder, hphase'⟩ := follow_frame s i ok
  have hcap : ((s.follow i ok).sessions i).phase.capturing = false := by
    rw [hphase', hphase]
    rfl
  have hgoto := hf.goto (next_plain p ok) (fun _ => hholder.trans hold) (Or.inr hcap)
  split_ifs with hidle
  · refine hgoto.answer false ?_
    rw [goto_self, hidle]
    rfl
  · exact hgoto

theorem Inv.hold {s : Sys} (h : Inv s) {i : ℕ} {taken : Bool}
    (hphase : (s.sessions i).phase = .reached (.entered .statement taken)) :
    Inv (s.hold i taken) := by
  have hold := (h.calls i).holds (by rw [hphase]; rfl)
  rw [Sys.hold]
  split_ifs
  · exact h.goto rfl (fun _ => hold) (Or.inr (by rw [hphase]; rfl))
  · have hr := h.core.regroups_hold (s.sessions i).txn s.side.epoch rfl
    exact h.on (h.core.regroups hr) hr.grows (fun _ _ => rfl) (fun _ _ => Iff.rfl) (Or.inl rfl)
      _ rfl rfl (fun _ => hold) (Or.inr ⟨by rw [hphase]; rfl, rfl⟩)
      fun _ g d ho c hc => hr.grows.due ((h.calls i).owes hold g d ho c hc)

/-- A write leaves its session about to capture the side. -/
theorem Inv.wrote {s u : Sys} (h : Inv s) {i : ℕ} {out : Outcome} {fin : ℕ}
    (hcut : out = .sealed → s.CutsBehind) (hold : s.holder = some i)
    (hu : s.write i out fin = some u) (p : Point) : Inv (u.goto i (.staging p)) := by
  obtain ⟨hcore, hgrows, hholder, hsess, ⟨o, ho⟩, howes⟩ :=
    h.core.write hcut hu ((h.calls i).owes hold)
  exact h.on hcore hgrows hsess (fun j _ => by rw [hholder]) (Or.inr hold) _
    (by rw [ho]) rfl (fun _ => hholder.trans hold) (Or.inl rfl) fun _ => howes

theorem Inv.write {s u : Sys} (h : Inv s) {i : ℕ} {out : Outcome} {fin : ℕ}
    (hcut : out = .sealed → s.CutsBehind) (hu : step s (.write i out fin) = some u) :
    Inv u := by
  simp only [step] at hu
  split at hu
  · rename_i held hphase
    obtain ⟨t, ht, rfl⟩ := Option.map_eq_some_iff.1 hu
    exact h.wrote hcut ((h.calls i).holds (by rw [hphase]; rfl)) ht _
  · rename_i taken hphase
    obtain ⟨t, ht, rfl⟩ := Option.map_eq_some_iff.1 hu
    exact h.wrote hcut ((h.calls i).holds (by rw [hphase]; rfl)) ht _
  · cases hu

/-- The holder changes what the side holds, and puts on the platter what it adds. -/
theorem Inv.sideChanges {s u : Sys} (h : Inv s) {i : ℕ} (hcore : Core u) (hg : Grows s u)
    (hold : s.holder = some i) (hsess : u.sessions = s.sessions) (hholder : u.holder = s.holder)
    (hplain : (s.sessions i).phase.plain = true)
    (hchanges : ∀ c ∈ u.side.changes, c ∈ s.side.changes ∨ u.OnPlatter c) : Inv u := by
  refine h.of_session hcore hg (fun j _ => by rw [hsess])
    (fun j _ => by rw [hholder]) (Or.inr hold) ?_
  refine ⟨fun _ => hholder.trans hold, fun p hp c hc => ?_, fun hcap p flag g d hp ho c hc => ?_,
    ?_, ?_, ?_, fun _ g d ho c hc => ?_⟩
  · rw [hsess] at hp
    exact hg.onPlatter c ((h.calls i).pending p hp c hc)
  · rw [hsess] at hcap hp ho
    exact hg.due ((h.calls i).debt hcap p flag g d hp ho c hc)
  · intro ok p flag g d hp
    rw [hsess] at hp
    rw [hp] at hplain
    cases hplain
  · intro p hp
    rw [hsess] at hp
    rw [hp] at hplain
    cases hplain
  · intro p captured hp
    rw [hsess] at hp
    rw [hp] at hplain
    cases hplain
  · rw [hsess] at ho
    rcases hchanges c hc with hc | hc
    · exact hg.due ((h.calls i).owes hold g d ho c hc)
    · exact Or.inl hc

theorem changes_store (s : Sys) (c : ℕ) (hc : c ∈ s.store.side.changes) :
    c ∈ s.side.changes ∨ s.store.sealed c = true := by
  have hchanges : s.store.side.changes =
      (s.side.file.db.roots ++ [s.next]) ++ s.side.patches := by
    simp [store, sealRoots, WriteSide.changes, WriteSide.patches]
  rw [hchanges] at hc
  rcases List.mem_append.1 hc with hc | hc
  · refine Or.inr ?_
    simp only [store, record_sealed, sealRoots, File.checkpoint_db, Bool.or_eq_true,
      decide_eq_true_eq]
    exact Or.inr hc
  · exact Or.inl (List.mem_append_right _ hc)

theorem Inv.store {s : Sys} (h : Inv s) {i : ℕ} {p : Point}
    (hphase : (s.sessions i).phase = .reached p) : Inv s.store := by
  have hr := h.core.regroups_store
  refine h.sideChanges (h.core.regroups hr) hr.grows ((h.calls i).holds (by rw [hphase]; rfl))
    (by simp [Sys.store, sealRoots]) (by simp [Sys.store, sealRoots]) (by rw [hphase]; rfl)
    fun c hc => (changes_store s c hc).imp_right Or.inl

theorem Inv.foldPatches {s : Sys} (h : Inv s) {i : ℕ} {p : Point} (hcut : s.CutsBehind)
    (hphase : (s.sessions i).phase = .reached p) : Inv s.foldPatches := by
  rw [Sys.foldPatches]
  cases hw : s.side.writer with
  | none => exact h
  | some w =>
      obtain ⟨hcore, hgrows, hall, hback⟩ := h.core.fold hw hcut
      obtain ⟨hsess, hholder, -⟩ := fold_frame s w
      refine h.sideChanges hcore hgrows ((h.calls i).holds (by rw [hphase]; rfl)) hsess hholder
        (by rw [hphase]; rfl) fun c hc => ?_
      rcases hall with hall | hsame
      · exact Or.inr (hall c (hback c (WriteSide.holds_of_changes hc)))
      · change c ∈ (s.fold w).side.changes at hc
        exact Or.inl (by rwa [hsame] at hc)

theorem Inv.settle {s : Sys} (h : Inv s) {i : ℕ} {held : Held} {ok out ended : Bool}
    (hre : ended = false → held.savepoint = true → out = false → s.settled = true)
    (hphase : (s.sessions i).phase = .reached (.body held ok)) :
    Inv (s.settle i held out ended) := by
  have hold := (h.calls i).holds (by rw [hphase]; rfl)
  have hcap : (s.sessions i).phase.capturing = false := by rw [hphase]; rfl
  rw [Sys.settle]
  by_cases hsaved : held.savepoint = true
  · rw [if_pos hsaved]
    cases out with
    | true =>
        have hr := h.core.regroups_release ended
        rw [if_pos rfl]
        refine h.on (h.core.regroups hr) hr.grows (fun _ _ => rfl) (fun _ _ => Iff.rfl)
          (Or.inr hold) _ rfl rfl (fun _ => hold) (Or.inl rfl) fun _ g d ho c hc => ?_
        rw [changes_release] at hc
        exact hr.grows.due ((h.calls i).owes hold g d ho c hc)
    | false =>
        have hplain : (if s.side.writer.isNone || ended then
            Phase.sharing (.undone held.entered)
              else .staging (.leaving .statement held.entered false)).plain = true := by
          split_ifs <;> rfl
        rw [if_neg Bool.false_ne_true]
        cases hin : s.side.file.inSavepoint with
        | true => exact h.undoes (fun he => hre he hsaved rfl) hin hold _ rfl rfl hplain hcap
        | false =>
            have hnone : s.side.file.savepoint = none := by
              simpa [File.inSavepoint] using hin
            have hsame : s.undo ended = s := by rw [undo, hnone]
            rw [hsame]
            exact h.goto hplain (fun _ => hold) (Or.inr hcap)
  · rw [if_neg hsaved]
    exact h.goto rfl (fun _ => hold) (Or.inr hcap)

theorem Inv.leave {s u : Sys} (h : Inv s) {i : ℕ} (hu : step s (.leave i) = some u) :
    Inv u := by
  have hsame : Regroups s s := h.core.regroups_same rfl rfl rfl rfl rfl rfl fun _ => Or.inl
  simp only [step] at hu
  split at hu <;> cases hu
  · rename_i call taken ok hphase
    have hold := (h.calls i).holds (by rw [hphase]; rfl)
    have hcap : (s.sessions i).phase.capturing = false := by rw [hphase]; rfl
    rw [afterLeave]
    split_ifs
    · exact h.leaves hsame rfl rfl rfl hold taken _ rfl rfl rfl rfl hcap
    · exact h.leaves hsame rfl rfl rfl hold taken _ rfl rfl rfl rfl hcap
  · rename_i hphase
    exact h.leaves hsame rfl rfl rfl ((h.calls i).holds (by rw [hphase]; rfl)) true _ rfl rfl rfl
      rfl (by rw [hphase]; rfl)

theorem Core.regroups_installPending {s : Sys} (h : Core s)
    {pending : Option (Published × Bool)} {waited : Bool}
    (hshown : ∀ p settled, pending = some (p, settled) → (waited || settled) = true →
      ∀ c ∈ p.changes, s.OnPlatter c) : Regroups s (s.installPending pending waited) := by
  have hsame : Regroups s s := h.regroups_same rfl rfl rfl rfl rfl rfl fun _ => Or.inl
  unfold installPending
  split
  · rename_i next settled
    split_ifs with hw
    · rw [publishStaged]
      split_ifs
      · exact hsame
      · exact h.shows rfl rfl rfl rfl rfl rfl (hshown next settled rfl hw)
    · exact hsame
  · exact hsame

theorem installPending_frame (s : Sys) (pending : Option (Published × Bool)) (waited : Bool) :
    (s.installPending pending waited).sessions = s.sessions ∧
      (s.installPending pending waited).holder = s.holder ∧
        (s.installPending pending waited).side = s.side := by
  unfold installPending
  split
  · split_ifs
    · rw [publishStaged]
      split_ifs <;> exact ⟨rfl, rfl, rfl⟩
    · exact ⟨rfl, rfl, rfl⟩
  · exact ⟨rfl, rfl, rfl⟩

theorem Inv.installs {s : Sys} (h : Inv s) {i : ℕ} {pending : Option (Published × Bool)}
    {waited : Bool} (ok : Bool) (hcap : (s.sessions i).phase.capturing = false)
    (hshown : ∀ p settled, pending = some (p, settled) → (waited || settled) = true →
      ∀ c ∈ p.changes, s.OnPlatter c) : Inv ((s.installPending pending waited).answer i ok) := by
  have hr := h.core.regroups_installPending hshown
  obtain ⟨hsess, hholder, hside⟩ := installPending_frame s pending waited
  refine h.on (h.core.regroups hr) hr.grows (fun j _ => by rw [hsess])
    (fun j _ => by rw [hholder]) (Or.inl (by rw [hside])) _ (by rw [hsess]) rfl
    (fun hh => by cases hh) (Or.inr ⟨hcap, by rw [hsess]⟩) fun hold g d ho c hc => ?_
  rw [hholder] at hold
  rw [hside] at hc
  exact hr.grows.due ((h.calls i).owes hold g d (by rw [hsess] at ho; exact ho) c hc)

/-- `durable` has taken what its session owed and what was pending. -/
theorem Inv.takesPending {s : Sys} (h : Inv s) {i : ℕ} {ok : Bool}
    (hphase : (s.sessions i).phase = .ending ok) :
    Inv (s.on i fun se => { se with pending := none, owed := none }) := by
  have hon := h.core.regroups_on i fun se => { se with pending := none, owed := none }
  refine h.of_session (h.core.regroups hon) hon.grows (fun j hj => on_of_ne s _ hj)
    (fun _ _ => Iff.rfl) (Or.inl rfl) ?_
  have hse : (s.on i fun se => { se with pending := none, owed := none }).sessions i =
      { s.sessions i with pending := none, owed := none } := upd_self _ _ _
  refine ⟨fun hh => ?_, fun q hq => ?_, fun _ q flag g d hq => ?_, ?_, ?_, ?_, fun _ g d ho => ?_⟩
  · rw [hse] at hh
    exact (h.calls i).holds hh
  · rw [hse] at hq
    cases hq
  · rw [hse] at hq
    cases hq
  · intro ok' q flag g d hq
    rw [hse] at hq
    exact absurd (hphase.symm.trans hq) (by simp)
  · intro q hq
    rw [hse] at hq
    exact absurd (hphase.symm.trans hq) (by simp)
  · intro q captured hq
    rw [hse] at hq
    exact absurd (hphase.symm.trans hq) (by simp)
  · rw [hse] at ho
    cases ho

theorem Inv.durable {s u : Sys} (h : Inv s) {i : ℕ} {ok : Bool}
    (hphase : (s.sessions i).phase = .ending ok) (hu : s.durable i ok = some u) : Inv u := by
  have hcap : (s.sessions i).phase.capturing = false := by rw [hphase]; rfl
  have ht := h.takesPending hphase
  have hse : (s.on i fun se => { se with pending := none, owed := none }).sessions i =
      { s.sessions i with pending := none, owed := none } := upd_self _ _ _
  have hi := h.calls i
  rw [Sys.durable] at hu
  cases howed : (s.sessions i).owed with
  | none =>
      rw [howed] at hu
      cases hu
      refine ht.installs ok (by rw [hse]; exact hcap) fun p settled hp hs c hc => ?_
      have hsettled : settled = true := by simpa using hs
      exact hi.pending p (by rw [hp, hsettled]) c hc
  | some debt =>
      obtain ⟨g, d⟩ := debt
      rw [howed] at hu
      obtain ⟨l, hl, rfl⟩ := Option.map_eq_some_iff.1 hu
      -- the debt covers what was pending, and the call leaves the log as it was
      obtain ⟨-, hlog⟩ := h.core.log (l := l) rfl hl
      have hcall := ht.log (l := l) rfl hl
      generalize hv : ({ (s.on i fun se => { se with pending := none, owed := none }) with
        logs := upd s.logs g l } : Sys) = v
      have hcall' : Inv v := by rw [← hv]; exact hcall
      have hsame : ∀ c, s.Due g d c → v.Due g d c := fun c hc => by
        rw [← hv]
        exact hlog.due hc
      have hve : v.sessions i = { s.sessions i with pending := none, owed := none } := by
        rw [← hv]
        exact hse
      have hgoto := hcall'.core.regroups_on i fun se =>
        { se with phase := .waiting ok (s.sessions i).pending g d }
      refine hcall'.of_session (hcall'.core.regroups hgoto) hgoto.grows
        (fun j hj => on_of_ne v _ hj) (fun _ _ => Iff.rfl) (Or.inl rfl) ?_
      have hwe : (v.goto i (.waiting ok (s.sessions i).pending g d)).sessions i =
          { s.sessions i with
            pending := none, owed := none
            phase := .waiting ok (s.sessions i).pending g d } := by
        rw [goto_self, hve]
      refine ⟨fun hh => ?_, fun q hq => ?_, fun _ q flag g' d' hq => ?_, ?_, ?_, ?_,
        fun _ g' d' ho => ?_⟩
      · rw [hwe] at hh
        cases hh
      · rw [hwe] at hq
        cases hq
      · rw [hwe] at hq
        cases hq
      · intro ok' q flag g' d' hq c hc
        rw [hwe] at hq
        obtain ⟨-, hp, rfl, rfl⟩ : ok = ok' ∧ (s.sessions i).pending = some (q, flag) ∧ g = g' ∧
            d = d' := by simpa using hq
        exact hgoto.grows.due (hsame c (hi.debt hcap q flag g d hp howed c hc))
      · intro q hq
        rw [hwe] at hq
        cases hq
      · intro q captured hq
        rw [hwe] at hq
        cases hq
      · rw [hwe] at ho
        cases ho

theorem Inv.landed {s u : Sys} (h : Inv s) {i : ℕ} {ok : Bool}
    {pending : Option (Published × Bool)} {g d : ℕ}
    (hphase : (s.sessions i).phase = .waiting ok pending g d)
    (hu : s.landed i ok pending g d = some u) : Inv u := by
  have hcap : (s.sessions i).phase.capturing = false := by rw [hphase]; rfl
  rw [Sys.landed] at hu
  split at hu <;> cases hu
  · rename_i n hret
    refine h.installs ok hcap fun p settled hp _ c hc => ?_
    rw [hp] at hphase
    exact ((h.calls i).waits ok p settled g d hphase c hc).elim id fun hcovers =>
      h.core.onPlatter_of_returned hcovers hret
  · exact h.answer false hcap

/-- One section that meets the condition keeps the invariant. -/
theorem Inv.step {s u : Sys} {a : Act} (h : Inv s) (hok : Cond s a)
    (hu : Shared.step s a = some u) : Inv u := by
  cases a with
  | log gen a =>
      simp only [Shared.step] at hu
      split_ifs at hu with ha
      obtain ⟨l, hl, rfl⟩ := Option.map_eq_some_iff.1 hu
      exact h.log (by cases a <;> first | rfl | cases ha) hl
  | read i =>
      simp only [Shared.step] at hu
      split at hu <;> cases hu
      rename_i hphase
      exact h.follow true (by rw [hphase]; rfl) (by rw [hphase]; rfl)
  | start i =>
      simp only [Shared.step] at hu
      split at hu <;> cases hu
      rename_i hphase
      exact h.self _ rfl rfl (by simp [hphase, Phase.plain])
        (fun hh => by simp [hphase, Phase.holding] at hh) (Or.inr (by rw [hphase]; rfl))
  | commit i ended =>
      simp only [Shared.step] at hu
      split at hu <;> cases hu
      exact h.commit ended ‹_›
  | rollback i reopened =>
      simp only [Shared.step] at hu
      split at hu <;> cases hu
      exact h.rollback hok ‹_›
  | enter i call opened =>
      simp only [Shared.step] at hu
      split at hu
      · exact h.enter hok ‹_› hu
      · cases hu
  | marks i => exact h.marks hu
  | install i => exact h.install hu
  | capture i => exact h.capture hu
  | follow i ok => exact h.followed hu
  | hold i =>
      simp only [Shared.step] at hu
      split at hu <;> cases hu
      exact h.hold ‹_›
  | write i out fin => exact h.write (fun ho => by rw [ho] at hok; exact hok) hu
  | store i =>
      simp only [Shared.step] at hu
      split at hu <;> cases hu
      exact h.store ‹_›
  | publishSide i =>
      simp only [Shared.step] at hu
      split at hu <;> cases hu
      rename_i held hphase
      exact h.goto rfl (fun _ => (h.calls i).holds (by rw [hphase]; rfl))
        (Or.inr (by rw [hphase]; rfl))
  | foldPatches i =>
      simp only [Shared.step] at hu
      split at hu <;> cases hu
      exact h.foldPatches hok ‹_›
  | settle i out ended =>
      simp only [Shared.step] at hu
      split at hu <;> cases hu
      rename_i held ok hphase
      exact h.settle (fun he hs hout => hok he held ok hphase hs hout) hphase
  | leave i => exact h.leave hu
  | durable i =>
      simp only [Shared.step] at hu
      split at hu
      · exact h.durable ‹_› hu
      · cases hu
  | landed i =>
      simp only [Shared.step] at hu
      split at hu
      · exact h.landed ‹_› hu
      · cases hu

theorem inv_new (epoch : ℕ) : Inv (Sys.new epoch) where
  core :=
    { made := fun _ _ => ⟨rfl, rfl⟩
      opened := fun _ _ h => nomatch h
      gen_lt := fun _ h => nomatch h
      wal := fun _ h => nomatch h
      cut := fun _ h => nomatch h
      lt := fun c h => by simp [WriteSide.Holds, File.saved, Sys.new] at h
      held := fun c h => by simp [WriteSide.Holds, File.saved, Sys.new] at h
      logged := fun _ h => nomatch h
      tracked := fun c ⟨_, h, _⟩ => nomatch h
      below := fun _ h => nomatch h
      belowSaved := fun _ _ _ h => nomatch h
      walSeq_le := fun _ h => nomatch h
      saved_le := fun _ h => nomatch h
      shown := fun _ h => nomatch h
      log_safe := fun _ h => nomatch h }
  calls _ :=
    { holds := fun h => nomatch h
      pending := fun _ h => nomatch h
      debt := fun _ _ _ _ _ h => nomatch h
      waits := fun _ _ _ _ _ h => nomatch h
      publishing := fun _ h => nomatch h
      flagging := fun _ _ h => nomatch h
      owes := fun h => nomatch h }

/-- In every run whose sections meet the condition, what the readers are shown has been
covered by a completed sync or held by a header on the disk. -/
theorem visible_onPlatter {epoch : ℕ} {s : Sys} (h : Lib.Run step Cond (Sys.new epoch) s) :
    ∀ c ∈ s.published.changes, s.OnPlatter c :=
  (h.invariant (fun _ _ _ hi hok hu => hi.step hok hu) (inv_new epoch)).core.shown

/-- What follows the `enter` of a statement that logs one change and waits for it. -/
def oneStatement (i fin : ℕ) : List Act :=
  [.marks i, .install i, .follow i true, .hold i, .write i .deferred fin, .capture i, .marks i,
    .follow i true, .settle i true true, .capture i, .marks i, .follow i true, .leave i,
    .durable i, .log 0 (.turn 0), .log 0 (.syncBegin 0), .log 0 (.syncEnd 0 true),
    .log 0 (.finish 0 1), .landed i]

/-- The statement is answered and its change is shown, covered by its own sync. -/
theorem visible_onPlatter_oneStatement :
    ∃ s, Lib.Run step Cond (Sys.new 0) s ∧ s.published.changes = [0] ∧
      ∀ c ∈ s.published.changes, s.OnPlatter c := by
  obtain ⟨t, ht⟩ : ∃ t, step (Sys.new 0) (.enter 0 .statement true) = some t := ⟨_, rfl⟩
  have hshown : ((Lib.runAll step (Sys.new 0)
      (.enter 0 .statement true :: oneStatement 0 100)).map fun s => s.published.changes) =
        some [0] := by decide
  obtain ⟨s, hs, hchanges⟩ := Option.map_eq_some_iff.1 hshown
  rw [Lib.runAll, ht, Option.bind_some] at hs
  have hfree : Cond (Sys.new 0) (.enter 0 .statement true) := fun _ => rfl
  have hentered : Lib.Run step Cond (Sys.new 0) t := (Lib.Run.refl _).tail hfree ht
  have hrun : Lib.Run step Cond (Sys.new 0) s := by
    refine hentered.trans (Lib.Run.of_runAll hs ?_)
    simp [oneStatement, Cond]
  exact ⟨s, hrun, hchanges, visible_onPlatter hrun⟩

/-- Session 0 is waiting for its sync when session 1 logs a change, has it folded and
the log emptied, logs another, and has staged both behind the sync of session 0. -/
def foldUnderWait : List Act :=
  [.enter 0 .statement true, .marks 0, .install 0, .follow 0 true, .hold 0,
    .write 0 .deferred 100, .capture 0, .marks 0, .follow 0 true, .settle 0 true true,
    .capture 0, .marks 0, .follow 0 true, .leave 0, .durable 0, .log 0 (.turn 0),
    .log 0 (.syncBegin 0),
    .enter 1 .statement true, .marks 1, .follow 1 true, .hold 1, .write 1 .sealed 200,
    .capture 1, .marks 1, .follow 1 true, .write 1 .deferred 60, .capture 1, .marks 1,
    .follow 1 true, .settle 1 true true, .capture 1, .marks 1, .follow 1 true, .leave 1,
    .durable 1, .log 0 (.syncEnd 0 true), .log 0 (.finish 0 1), .log 0 (.turn 2), .landed 1]

/-- The run of `foldUnderWait` shows the readers change 2, which no header has held and
no sync has covered. -/
theorem not_visible_onPlatter :
    ¬ ∀ (epoch : ℕ) (s : Sys), Lib.Run step Lib.anyAction (Sys.new epoch) s →
      ∀ c ∈ s.published.changes, s.OnPlatter c := by
  intro h
  have hrun : ((Lib.runAll step (Sys.new 0) foldUnderWait).map fun s =>
      (decide (2 ∈ s.published.changes), s.sealed 2, s.opening 2, (s.logs 0).ghost.covered 2)) =
        some (true, false, some 0, false) := by decide
  obtain ⟨s, hs, heq⟩ := Option.map_eq_some_iff.1 hrun
  simp only [Prod.mk.injEq, decide_eq_true_eq] at heq
  obtain ⟨hmem, hsealed, hopening, hcovered⟩ := heq
  rcases h 0 s (Lib.Run.of_runAll hs fun _ _ _ => trivial) 2 hmem with hs | ⟨g, hg, hc⟩
  · rw [hsealed] at hs
    cases hs
  · rw [hopening] at hg
    cases hg
    rw [hcovered] at hc
    cases hc

end Sys

end Zu.Shared
