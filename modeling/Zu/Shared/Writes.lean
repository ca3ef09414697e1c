import Zu.Shared.Turns

/-!
# Writing and undoing

The sections that change the write side: a clause stores, logs or folds, and a
transaction ends.
-/

namespace Zu.Shared

open Wal (upd upd_self upd_of_ne)

namespace Sys

variable {s : Sys} {i : ℕ} {cut cut' : Bool}

/-! ### Folding and writing -/

/-- A fold leaves the transactions, the sessions and what is published. -/
structure Keeps (s u : Sys) : Prop where
  done : u.done = s.done
  running : u.running = s.running
  next : u.next = s.next
  holder : u.holder = s.holder
  sessions : u.sessions = s.sessions
  published : u.published = s.published

theorem fold_keeps (s : Sys) (w : Writer) : Keeps s (s.fold w) := by
  rw [Sys.fold]
  split_ifs <;> exact ⟨rfl, rfl, rfl, rfl, rfl, rfl⟩

theorem fold_side (s : Sys) (w : Writer) :
    (s.fold w).side = if s.side.folded w then s.side else s.side.checkpointFold w := by
  rw [Sys.fold]
  split_ifs <;> rfl

theorem checkpointFold_inSavepoint (side : WriteSide) (w : Writer) :
    (side.checkpointFold w).file.inSavepoint = side.file.inSavepoint := by
  rw [File.inSavepoint_iff_origin, File.inSavepoint_iff_origin]
  exact congrArg Option.isSome (File.origin_checkpoint _)

/-- The session that holds the side changes it and stays in its statement. -/
theorem Orderly.sideChanges {u : Sys} (h : Orderly s cut) {p : Point}
    (hphase : (s.sessions i).phase = .reached p) (hbody : (Phase.reached p).synced = false)
    (haccounts : Accounts u.side u.done u.running u.next cut')
    (hwriter : ∃ w, u.side.writer = some w) (hdone : s.done <+: u.done)
    (hin : u.side.file.inSavepoint = s.side.file.inSavepoint) (hholder : u.holder = s.holder)
    (hsess : u.sessions = s.sessions) (heven : u.Even) : Orderly u cut' := by
  have hold := (h.sees i).holds (by rw [hphase]; rfl)
  have hsees := h.sees i
  refine h.of_session (i := i) haccounts (fun _ _ => hwriter) (fun _ hno => ?_) heven
    (fun j _ => by rw [hsess]) (fun j _ => by rw [hholder]) hdone (Or.inl hold) ?_
  · rw [hholder, hold] at hno
    cases hno
  · exact
      { holds := fun _ => hholder.trans hold
        owns := fun hp => by
          rw [hin]
          exact hsees.owns (hsess ▸ hp)
        view := fun hs => by
          have hp := hs (hholder.trans hold)
          rw [hsess, hphase, hbody] at hp
          cases hp
        staged := fun q hq => by
          rw [hsess, Session.staged, hphase] at hq
          cases p <;> first | cases hq | cases hbody }

theorem Orderly.foldPatches (h : Orderly s cut) {held : Held} {ok : Bool}
    (hphase : (s.sessions i).phase = .reached (.body held ok))
    (hcut : Notes s s.foldPatches cut cut') : Orderly s.foldPatches cut' := by
  have hold := (h.sees i).holds (by rw [hphase]; rfl)
  obtain ⟨w, hw⟩ := h.writer i hold
  have hfold : s.foldPatches = s.fold w := by rw [Sys.foldPatches, hw]
  rw [hfold] at hcut ⊢
  have hkeeps := fold_keeps s w
  have hside := fold_side s w
  split_ifs at hside with hfolded
  · refine (h.notes fun hc hin => (hcut hc hin (by rw [hside]; exact hin)).1).congr hside ?_ ?_ ?_
      ?_ ?_
    · exact hkeeps.done
    · exact hkeeps.running
    · exact hkeeps.next
    · exact hkeeps.holder
    · exact hkeeps.sessions
  · have hin := checkpointFold_inSavepoint s.side w
    refine h.sideChanges hphase rfl ?_ ⟨_, by rw [hside]; rfl⟩ ?_ (by rw [hside, hin])
      hkeeps.holder hkeeps.sessions (Or.inl ?_)
    · rw [hside, hkeeps.done, hkeeps.running, hkeeps.next]
      refine h.accounts.checkpointFold hw fun hc ho => ?_
      have hin' : s.side.file.inSavepoint = true := by
        rw [File.inSavepoint_iff_origin]
        exact Option.isSome_iff_ne_none.2 ho
      have hboth := hcut hc hin' (by rw [hside, hin, hin'])
      rw [hside] at hboth
      exact hboth
    · exact hkeeps.done ▸ List.prefix_refl _
    · rw [hside]
      intro w' hw'
      cases hw'
      rfl

/-- The transaction that is open takes in the change, or it is one by itself. -/
theorem record_txn {u : Sys} (hin : u.side.file.inSavepoint = s.side.file.inSavepoint)
    (hdone : u.done = s.done) (hrunning : u.running = s.running) (c : ℕ) :
    if s.side.file.inSavepoint then
      (u.record c).done = s.done ∧ (u.record c).running = s.running ++ [c]
    else (u.record c).done = s.done ++ [[c]] ∧ (u.record c).running = s.running := by
  rw [← hin, ← hdone, ← hrunning]
  unfold record
  split_ifs <;> exact ⟨rfl, rfl⟩

/-- A change goes to the transaction that is running, or to the end of the committed
ones. -/
def Adds (s u : Sys) : Prop :=
  (u.done = s.done ∧ s.running <+: u.running) ∨ (s.done <+: u.done ∧ s.running = [])

theorem Adds.refl (s : Sys) : Adds s s := Or.inl ⟨rfl, List.prefix_refl _⟩

theorem Adds.done {u : Sys} (h : Adds s u) : s.done <+: u.done := by
  rcases h with ⟨hd, -⟩ | ⟨hd, -⟩
  · exact hd ▸ List.prefix_refl _
  · exact hd

theorem Adds.of_record {u : Sys} (ha : Accounts s.side s.done s.running s.next cut) {c : ℕ}
    (h : if s.side.file.inSavepoint then u.done = s.done ∧ u.running = s.running ++ [c]
      else u.done = s.done ++ [[c]] ∧ u.running = s.running) : Adds s u := by
  split_ifs at h with hin
  · exact Or.inl ⟨h.1, h.2 ▸ List.prefix_append _ _⟩
  · refine Or.inr ⟨h.1 ▸ List.prefix_append _ _, ?_⟩
    exact ha.idle (File.origin_of_not_inSavepoint (Bool.not_eq_true _ ▸ hin))

theorem Adds.shows {u : Sys} (h : Adds s u) (hpublished : u.published = s.published) :
    Shows s u i := by
  rcases h with ⟨hd, hr⟩ | ⟨hd, hr⟩
  · exact .on hpublished hd hr
  · exact .alone hpublished hd hr

theorem inSavepoint_of_origin {f g : File} (h : f.origin = g.origin) :
    f.inSavepoint = g.inSavepoint := by
  rw [File.inSavepoint_iff_origin, File.inSavepoint_iff_origin, h]

theorem store_txn (s : Sys) :
    if s.side.file.inSavepoint then
      s.store.done = s.done ∧ s.store.running = s.running ++ [s.next]
    else s.store.done = s.done ++ [[s.next]] ∧ s.store.running = s.running := by
  refine record_txn ?_ ?_ ?_ s.next
  · exact inSavepoint_of_origin (File.origin_checkpoint _)
  · rfl
  · rfl

theorem Orderly.store (h : Orderly s cut) {held : Held} {ok : Bool}
    (hphase : (s.sessions i).phase = .reached (.body held ok)) :
    Orderly s.store cut ∧ Shows s s.store i ∧
      s.store.side.file.inSavepoint = s.side.file.inSavepoint := by
  have hold := (h.sees i).holds (by rw [hphase]; rfl)
  obtain ⟨w, hw⟩ := h.writer i hold
  have htxn := store_txn s
  have hadds : Adds s s.store := Adds.of_record h.accounts htxn
  have hside : s.store.side = { s.side with file := ({ s.side.file with
      db := { s.side.file.db with roots := s.side.file.db.roots ++ [s.next] } }).checkpoint } := by
    simp [Sys.store, sealRoots]
  have hnext : s.store.next = s.next + 1 := by simp [Sys.store, sealRoots]
  have hin : s.store.side.file.inSavepoint = s.side.file.inSavepoint := by
    rw [hside]
    exact inSavepoint_of_origin (File.origin_checkpoint _)
  refine ⟨h.sideChanges hphase rfl ?_ ⟨w, ?_⟩ hadds.done hin ?_ ?_ ?_, hadds.shows ?_, hin⟩
  · rw [hside, hnext]
    exact h.accounts.store rfl htxn
  · rw [hside]
    exact hw
  · simp [Sys.store, sealRoots]
  · simp [Sys.store, sealRoots]
  · rcases h.even with heven | ⟨j, hj, hd⟩
    · refine Or.inl ?_
      rw [hside]
      exact heven
    · refine Or.inr ⟨j, by simpa [Sys.store, sealRoots] using hj, ?_⟩
      simpa [Sys.store, sealRoots] using hd
  · simp [Sys.store, sealRoots]

/-- What writing does to the state, up to where the session goes next. -/
structure Wrote (s t : Sys) (i : ℕ) (cut' : Bool) : Prop where
  accounts : Accounts t.side t.done t.running t.next cut'
  writer : ∃ w, t.side.writer = some w
  adds : Adds s t
  inSavepoint : t.side.file.inSavepoint = s.side.file.inSavepoint
  holder : t.holder = s.holder
  published : t.published = s.published
  others : ∀ j, j ≠ i → t.sessions j = s.sessions j
  session : ∃ owed, t.sessions i = { s.sessions i with owed }

theorem logFrames_txn {w : Writer} {fin : ℕ} {t : Sys} (ht : s.logFrames w fin = some t) :
    if s.side.file.inSavepoint then t.done = s.done ∧ t.running = s.running ++ [s.next]
    else t.done = s.done ++ [[s.next]] ∧ t.running = s.running := by
  obtain ⟨l, -, rfl⟩ := Option.map_eq_some_iff.1 ht
  refine record_txn ?_ ?_ ?_ s.next
  · exact inSavepoint_of_origin (File.origin_keepSavepoint _)
  · rfl
  · rfl

theorem Orderly.logFrames (h : Orderly s cut) {w : Writer} {fin : ℕ} {t : Sys}
    (hw : s.side.writer = some w) (ht : s.logFrames w fin = some t) :
    Wrote s t i cut ∧ t.side.below = s.side.below ∧
      t.side.writer = some { w with epoch := w.epoch + 1, overlay := w.overlay ++ [s.next] } := by
  obtain ⟨l, -, -, -, hnext, -, -, hpub, hsess, hholder, hside⟩ := logFrames_eq ht
  have htxn := logFrames_txn ht
  have hin : t.side.file.inSavepoint = s.side.file.inSavepoint := by
    rw [hside]
    exact inSavepoint_of_origin (File.origin_keepSavepoint _)
  refine ⟨⟨?_, ⟨_, by rw [hside]⟩, Adds.of_record h.accounts htxn, hin, hholder, hpub,
    fun j _ => by rw [hsess], ⟨(s.sessions i).owed, by rw [hsess]⟩⟩, ?_, by rw [hside]⟩
  · rw [hside, hnext]
    exact h.accounts.logFrames hw htxn
  · rw [hside]
    exact h.accounts.below_logFrames hw

theorem Wrote.refl (h : Orderly s cut) (hold : s.holder = some i) : Wrote s s i cut where
  accounts := h.accounts
  writer := h.writer i hold
  adds := Adds.refl s
  inSavepoint := rfl
  holder := rfl
  published := rfl
  others _ _ := rfl
  session := ⟨(s.sessions i).owed, rfl⟩

/-- Owing a sync is nothing the side or the readers know of. -/
theorem Wrote.owes {t : Sys} (h : Wrote s t i cut) (g c : ℕ) : Wrote s (t.owes i g c) i cut where
  accounts := h.accounts
  writer := h.writer
  adds := h.adds
  inSavepoint := h.inSavepoint
  holder := h.holder
  published := h.published
  others j hj := (upd_of_ne hj).trans (h.others j hj)
  session := by
    obtain ⟨owed, ho⟩ := h.session
    refine ⟨some (g, c), ?_⟩
    change upd t.sessions i _ i = _
    rw [upd_self, ho]

/-- The side is regrouped after the frames are in the log. -/
theorem Wrote.carries {t u : Sys} (h : Wrote s t i cut) (hkeeps : Keeps t u)
    (haccounts : Accounts u.side t.done t.running t.next cut')
    (hwriter : ∃ w, u.side.writer = some w)
    (hin : u.side.file.inSavepoint = t.side.file.inSavepoint) : Wrote s u i cut' where
  accounts := by
    rw [hkeeps.done, hkeeps.running, hkeeps.next]
    exact haccounts
  writer := hwriter
  adds := by
    rw [Adds, hkeeps.done, hkeeps.running]
    exact h.adds
  inSavepoint := hin.trans h.inSavepoint
  holder := hkeeps.holder.trans h.holder
  published := hkeeps.published.trans h.published
  others j hj := by
    rw [hkeeps.sessions]
    exact h.others j hj
  session := by
    rw [hkeeps.sessions]
    exact h.session

theorem Notes.known {t : Sys} (hcut : Notes s t cut cut')
    (hin : t.side.file.inSavepoint = s.side.file.inSavepoint) {f : File}
    (hf : f.inSavepoint = s.side.file.inSavepoint) (hc : cut' = false) :
    cut = false ∨ f.origin = none := by
  cases hs : s.side.file.inSavepoint with
  | true => exact Or.inl (hcut hc hs (hin.trans hs)).1
  | false => exact Or.inr (File.origin_of_not_inSavepoint (hf.trans hs))

/-- What a write comes to: the readers are handed it, a fold takes it in, or it is left
where only an undo finds it. -/
theorem Orderly.write (h : Orderly s cut) {out : Outcome} {fin : ℕ} {t : Sys}
    (hold : s.holder = some i)
    (heven : ∀ w, s.side.writer = some w → w.patches = w.overlay)
    (ht : s.write i out fin = some t)
    (hcut : Notes s t cut cut') :
    Wrote s t i cut' ∧
      (out ≠ .unfolded → ∀ w, t.side.writer = some w → w.patches = w.overlay) := by
  obtain ⟨w, hw⟩ := h.writer i hold
  have hwith : s.withWriter = s := by simp [withWriter, hw]
  unfold Sys.write at ht
  simp only [hwith] at ht
  have hlogs : ∀ o, (s.side.writer.bind fun writer => (s.logFrames writer fin).bind fun s' =>
      s'.side.writer.map fun writer' => s'.carry i writer' s.next o) = some t →
      ∃ t₀, s.logFrames w fin = some t₀ ∧
        t = t₀.carry i { w with epoch := w.epoch + 1, overlay := w.overlay ++ [s.next] }
          s.next o := by
    intro o ho
    rw [hw, Option.bind_some] at ho
    obtain ⟨t₀, ht₀, ho⟩ := Option.bind_eq_some_iff.1 ho
    rw [(h.logFrames (i := i) hw ht₀).2.2] at ho
    exact ⟨t₀, ht₀, (Option.some.inj ho).symm⟩
  cases out with
  | raised ok =>
      cases ht
      exact ⟨Wrote.refl (h.notes fun hc hin => (hcut hc hin hin).1) hold, fun _ => heven⟩
  | deferred =>
      obtain ⟨t₀, ht₀, rfl⟩ := hlogs _ ht
      obtain ⟨hwrote, -, hwriter⟩ := h.logFrames (i := i) hw ht₀
      have hin := inSavepoint_of_origin (File.origin_stageDeferred t₀.side.file)
      have hsame := hin.trans hwrote.inSavepoint
      refine ⟨Wrote.owes (hwrote.carries (u := t₀.stagePatch _ s.next)
        ⟨rfl, rfl, rfl, rfl, rfl, rfl⟩ ((hwrote.accounts.stagePatch hwriter s.next).weaken (hcut.known hsame hsame))
        ⟨_, rfl⟩ hin) _ _, fun _ w' hw' => ?_⟩
      cases hw'
      change w.patches ++ [s.next] = w.overlay ++ [s.next]
      rw [heven w hw]
  | folded =>
      obtain ⟨t₀, ht₀, rfl⟩ := hlogs _ ht
      obtain ⟨hwrote, -, hwriter⟩ := h.logFrames (i := i) hw ht₀
      have hin := inSavepoint_of_origin (File.origin_stageFold t₀.side.file)
      have hsame := hin.trans hwrote.inSavepoint
      refine ⟨Wrote.owes (hwrote.carries (u := t₀.stagedFold _)
        ⟨rfl, rfl, rfl, rfl, rfl, rfl⟩ ((hwrote.accounts.stagedFold hwriter).weaken (hcut.known hsame hsame))
        ⟨_, rfl⟩ hin) _ _, fun _ w' hw' => ?_⟩
      cases hw'
      rfl
  | «sealed» =>
      obtain ⟨t₀, ht₀, rfl⟩ := hlogs _ ht
      obtain ⟨hwrote, hbelow, hwriter⟩ := h.logFrames (i := i) hw ht₀
      generalize hw₀ :
        ({ w with epoch := w.epoch + 1, overlay := w.overlay ++ [s.next] } : Writer) = w₀ at *
      have hside : (t₀.fold w₀).side = t₀.side.checkpointFold w₀ := by
        rw [fold_side, if_neg]
        simp [WriteSide.folded, ← hw₀]
      have hin : (t₀.fold w₀).side.file.inSavepoint = t₀.side.file.inSavepoint := by
        rw [hside]
        exact checkpointFold_inSavepoint _ _
      change Notes s (t₀.fold w₀) cut cut' at hcut
      change Wrote s (t₀.fold w₀) i cut' ∧ _
      refine ⟨hwrote.carries (fold_keeps t₀ w₀) ?_ ⟨_, by rw [hside]; rfl⟩ hin,
        fun _ w' hw' => ?_⟩
      · rw [hside]
        refine hwrote.accounts.checkpointFold hwriter fun hc ho => ?_
        have hin₀ : t₀.side.file.inSavepoint = true := by
          rw [File.inSavepoint_iff_origin]
          exact Option.isSome_iff_ne_none.2 ho
        obtain ⟨hfalse, hsame⟩ :=
          hcut hc (hwrote.inSavepoint ▸ hin₀) (hin.trans hin₀)
        exact ⟨hfalse, by rw [← hside, hsame, hbelow]⟩
      · change (t₀.fold w₀).side.writer = some w' at hw'
        rw [hside] at hw'
        cases hw'
        rfl
  | unfolded =>
      obtain ⟨t₀, ht₀, rfl⟩ := hlogs _ ht
      obtain ⟨hwrote, -, -⟩ := h.logFrames (i := i) hw ht₀
      refine ⟨hwrote.carries ⟨rfl, rfl, rfl, rfl, rfl, rfl⟩ (hwrote.accounts.weaken
        (hcut.known hwrote.inSavepoint hwrote.inSavepoint)) hwrote.writer rfl,
        fun hne => absurd rfl hne⟩

theorem Orderly.wrote {t : Sys} {q : Point} (h : Orderly s cut) (hold : s.holder = some i)
    (hw : Wrote s t i cut')
    (howns : (Phase.staging q).owns = true → s.side.file.inSavepoint = true)
    (heven : (∀ w, t.side.writer = some w → w.patches = w.overlay) ∨
      (Phase.staging q).doomed = true) : Orderly (t.goto i (.staging q)) cut' := by
  have hself : (t.goto i (.staging q)).sessions i = { t.sessions i with phase := .staging q } :=
    upd_self _ _ _
  have hholder : (t.goto i (.staging q)).holder = some i := hw.holder.trans hold
  refine h.of_session (i := i) hw.accounts (fun _ _ => hw.writer) (fun _ hno => ?_) ?_
    (fun j hj => (on_of_ne _ _ hj).trans (hw.others j hj)) (fun j _ => ?_) hw.adds.done
    (Or.inl hold) ?_
  · rw [hholder] at hno
    cases hno
  · refine heven.imp id fun hd => ⟨i, hholder, ?_⟩
    rw [hself]
    exact hd
  · exact iff_of_eq (congrArg (· = some j) hw.holder)
  · exact
      { holds := fun _ => hholder
        owns := fun hp => by
          rw [hself] at hp
          exact hw.inSavepoint.trans (howns hp)
        view := fun hs => by
          have hp := hs hholder
          rw [hself] at hp
          cases hp
        staged := fun p hp => by
          rw [hself] at hp
          cases hp }

/-- The side is free to be even while the statement that holds it can go on. -/
theorem Orderly.even_of_body (h : Orderly s cut) (hold : s.holder = some i)
    (hphase : (s.sessions i).phase.doomed = false) :
    ∀ w, s.side.writer = some w → w.patches = w.overlay := by
  rcases h.even with heven | ⟨j, hj, hd⟩
  · exact heven
  · rw [hold] at hj
    cases hj
    rw [hphase] at hd
    cases hd

theorem Orderly.writes {u : Sys} {out : Outcome} {fin : ℕ} (h : Orderly s cut)
    (hu : step s (.write i out fin) = some u) (hcut : Notes s u cut cut')
    (hout : out = .unfolded → ∃ held ok, (s.sessions i).phase = .reached (.body held ok) ∧
      held.savepoint = true) : Orderly u cut' ∧ Shows s u i := by
  have hin := (h.sees i).owns
  simp only [step] at hu
  split at hu
  · rename_i held hphase
    have hold := (h.sees i).holds (by rw [hphase]; rfl)
    have heven := h.even_of_body hold (by rw [hphase]; rfl)
    obtain ⟨t, ht, rfl⟩ := Option.map_eq_some_iff.1 hu
    obtain ⟨hwrote, hpatches⟩ := h.write hold heven ht hcut
    rw [hphase] at hin
    refine ⟨h.wrote hold hwrote hin ?_, (hwrote.adds.shows hwrote.published).on_session⟩
    by_cases hun : out = .unfolded
    · obtain ⟨held', ok', hphase', hsaved⟩ := hout hun
      rw [hphase] at hphase'
      cases hphase'
      subst hun
      exact Or.inr hsaved
    · exact Or.inl (hpatches hun)
  · rename_i taken hphase
    have hold := (h.sees i).holds (by rw [hphase]; rfl)
    have heven := h.even_of_body hold (by rw [hphase]; rfl)
    obtain ⟨t, ht, rfl⟩ := Option.map_eq_some_iff.1 hu
    obtain ⟨hwrote, hpatches⟩ := h.write hold heven ht hcut
    refine ⟨h.wrote hold hwrote (fun hp => nomatch hp) (Or.inl (hpatches fun hun => ?_)),
      (hwrote.adds.shows hwrote.published).on_session⟩
    obtain ⟨held', ok', hphase', -⟩ := hout hun
    rw [hphase] at hphase'
    cases hphase'
  · cases hu

theorem shows_foldPatches (s : Sys) : Shows s s.foldPatches i := by
  rw [foldPatches]
  split
  · rename_i w hw
    have hkeeps := fold_keeps s w
    exact Shows.of_same hkeeps.published hkeeps.done hkeeps.running
  · exact Shows.of_same rfl rfl rfl

/-! ### Opening the writer and ending a transaction -/

theorem openWriter_keeps (s : Sys) : Keeps s s.openWriter := by
  have h := fold_keeps
    { s with
      side := { s.side with writer := some (s.side.recovered s.gens) }
      logs := upd s.logs s.gens (Wal.Sys.new (endOf s.side.log))
      gens := s.gens + 1 } (s.side.recovered s.gens)
  exact ⟨h.done, h.running, h.next, h.holder, h.sessions, h.published⟩

/-- A writer that is opened outside a savepoint folds what it recovers. -/
theorem openWriter_side {done : List (List ℕ)} {running : List ℕ} {next : ℕ} (cut' : Bool)
    (h : Accounts s.side done running next cut) (ho : s.side.file.origin = none) :
    Accounts s.openWriter.side done running next cut' ∧
      (∃ w, s.openWriter.side.writer = some w) ∧
      (∀ w, s.openWriter.side.writer = some w → w.patches = w.overlay) ∧
      s.openWriter.side.file.inSavepoint = s.side.file.inSavepoint := by
  have hrecovered := h.recovered ho s.gens
  rw [openWriter]
  generalize hw : s.side.recovered s.gens = w at *
  have hpatches : w.patches = [] := by
    rw [← hw]
    rfl
  rw [fold_side]
  split_ifs with hfolded
  · refine ⟨hrecovered.weaken fun _ => Or.inr ho, ⟨w, rfl⟩, fun w' hw' => ?_, rfl⟩
    cases hw'
    rw [WriteSide.folded, Bool.and_eq_true, List.isEmpty_iff] at hfolded
    rw [hpatches, hfolded.1]
  · refine ⟨hrecovered.checkpointFold rfl fun _ hne => absurd ho hne, ⟨_, rfl⟩,
      fun w' hw' => ?_, checkpointFold_inSavepoint _ w⟩
    cases hw'
    rfl

theorem Orderly.enter {u : Sys} (h : Orderly s cut) {call : Call} {opened : Bool}
    (hphase : (s.sessions i).phase = .idle) (hu : s.enter i call opened = some u) :
    Orderly u cut ∧ Shows s u i ∧ u.side.file.inSavepoint = s.side.file.inSavepoint := by
  have hnot : (s.sessions i).phase.doomed = false := by rw [hphase]; rfl
  have hsync : (s.sessions i).phase.synced = true := by rw [hphase]; rfl
  cases hold : s.holder with
  | some j =>
      simp only [Sys.enter, hold] at hu
      split_ifs at hu with hij
      subst hij
      cases hu
      refine ⟨h.moves _ rfl (fun _ => hold) (fun hp => by cases hp) (fun _ _ => hsync)
        (fun _ hp => by cases hp) fun hd => ?_, Shows.of_same rfl rfl rfl, rfl⟩
      rw [hnot] at hd
      cases hd
  | none =>
      simp only [Sys.enter, hold] at hu
      split_ifs at hu with hw hopened <;> cases hu
      · exact ⟨h.take hold hw call, Shows.of_same rfl rfl rfl, rfl⟩
      · have ho : s.side.file.origin = none := by
          refine File.origin_of_not_inSavepoint (Bool.eq_false_iff.2 fun hin => ?_)
          exact h.held hin hold
        obtain ⟨haccounts, hwriter, heven, hin⟩ := openWriter_side cut h.accounts ho
        have hkeeps := openWriter_keeps s
        have hopen : Orderly s.openWriter cut := by
          refine h.of_session (i := i) ?_ (fun _ _ => hwriter) (fun hin' => ?_) (Or.inl heven)
            (fun j _ => by rw [hkeeps.sessions]) (fun j _ => by rw [hkeeps.holder])
            (hkeeps.done ▸ List.prefix_refl _) (Or.inr ⟨hkeeps.done, hkeeps.running, hin⟩) ?_
          · rw [hkeeps.done, hkeeps.running, hkeeps.next]
            exact haccounts
          · rw [hin] at hin'
            exact absurd hold (h.held hin')
          · exact (h.sees i).frame (by rw [hkeeps.sessions]) (by rw [hkeeps.holder])
              (hkeeps.done ▸ List.prefix_refl _) fun _ => ⟨hkeeps.done, hkeeps.running, hin⟩
        refine ⟨hopen.take (hkeeps.holder.trans hold) (Option.isSome_iff_exists.2 hwriter) call, ?_⟩
        exact ⟨Shows.of_same hkeeps.published hkeeps.done hkeeps.running, hin⟩
      · exact ⟨h.answer false (fun _ => hsync) hnot, Shows.of_same rfl rfl rfl, rfl⟩

/-- What taking the running transaction back does to the state. -/
theorem Orderly.undo (h : Orderly s false) (cut' : Bool) (hold : s.holder = some i)
    (hin : s.side.file.inSavepoint = true) :
    Accounts (s.undo true).side s.done [] s.next cut' ∧
      (∃ w, (s.undo true).side.writer = some w) ∧
      (∀ w, (s.undo true).side.writer = some w → w.patches = w.overlay) ∧
      (s.undo true).side.file.inSavepoint = false ∧ (s.undo true).done = s.done ∧
      (s.undo true).running = [] ∧ (s.undo true).next = s.next ∧
      (s.undo true).published = s.published := by
  obtain ⟨saved, hsaved⟩ := Option.isSome_iff_exists.1 hin
  obtain ⟨w, hw⟩ := h.writer i hold
  rw [Sys.undo, hsaved]
  simp only [hw, Option.isSome_some, Bool.and_self, if_true]
  generalize hu : (s.discardAbove saved.logFloor).rollbackSavepoint saved = u
  have hcut : (s.discardAbove saved.logFloor).side =
        { s.side with writer := none, log := cutAbove saved.logFloor s.side.log } ∧
      (s.discardAbove saved.logFloor).done = s.done ∧
      (s.discardAbove saved.logFloor).next = s.next ∧
      (s.discardAbove saved.logFloor).published = s.published := by
    simp only [discardAbove, hw]
    split_ifs <;> exact ⟨rfl, rfl, rfl, rfl⟩
  obtain ⟨hside, hdone, hnext, hpublished⟩ := hcut
  have hback : u.side =
        { file := s.side.file.rollbackSavepoint, writer := none
          log := cutAbove saved.logFloor s.side.log } ∧
      u.done = s.done ∧ u.running = [] ∧ u.next = s.next ∧ u.published = s.published := by
    rw [← hu, rollbackSavepoint]
    split_ifs
    · exact ⟨by rw [hside], hdone, rfl, hnext, hpublished⟩
    · exact ⟨by simp only [sealRoots, hside], hdone, rfl, hnext, hpublished⟩
  obtain ⟨huside, hudone, hurunning, hunext, hupublished⟩ := hback
  have haccounts : Accounts u.side s.done [] s.next false := by
    rw [huside]
    exact h.accounts.rollback hsaved
  have hnone : u.side.file.inSavepoint = false := by
    rw [huside]
    simp only [File.rollbackSavepoint, hsaved]
    split_ifs <;> rfl
  obtain ⟨hopened, hwriter, heven, hin'⟩ :=
    openWriter_side cut' haccounts (File.origin_of_not_inSavepoint hnone)
  have hkeeps := openWriter_keeps u
  exact ⟨hopened, hwriter, heven, hin'.trans hnone, hkeeps.done.trans hudone,
    hkeeps.running.trans hurunning, hkeeps.next.trans hunext, hkeeps.published.trans hupublished⟩

/-- The session that holds the side takes the running transaction back, and is to
follow the side. -/
theorem Orderly.undoes (h : Orderly s false) (hold : s.holder = some i)
    (hin : s.side.file.inSavepoint = true) (f : Session → Session)
    (hsync : (f (s.sessions i)).phase.synced = false)
    (hstaged : (f (s.sessions i)).staged = none)
    (howns : (f (s.sessions i)).phase.owns = false) :
    Orderly ((s.undo true).on i f) cut' ∧ Shows s ((s.undo true).on i f) i := by
  obtain ⟨haccounts, hwriter, heven, hout, hdone, hrunning, hnext, hpublished⟩ :=
    h.undo cut' hold hin
  obtain ⟨hsess, hholder⟩ := undo_frame s true
  have hself : ((s.undo true).on i f).sessions i = f (s.sessions i) := by
    rw [← hsess]
    exact upd_self _ _ _
  refine ⟨h.of_session (i := i) ?_ (fun _ _ => hwriter) (fun hin' => ?_) (Or.inl heven)
    (fun j hj => ?_) (fun j _ => ?_) ?_ (Or.inl hold) ?_, .undone hpublished hdone hrunning⟩
  · change Accounts (s.undo true).side (s.undo true).done (s.undo true).running
      (s.undo true).next cut'
    rw [hdone, hrunning, hnext]
    exact haccounts
  · rw [show (s.undo true).side.file.inSavepoint = true from hin'] at hout
    cases hout
  · rw [on_of_ne _ _ hj, hsess]
  · exact iff_of_eq (congrArg (· = some j) hholder)
  · exact hdone ▸ List.prefix_refl _
  · exact
      { holds := fun _ => hholder.trans hold
        owns := fun hp => by
          rw [hself, howns] at hp
          cases hp
        view := fun hs => by
          have hp := hs (hholder.trans hold)
          rw [hself, hsync] at hp
          cases hp
        staged := fun p hp => by
          rw [hself, hstaged] at hp
          cases hp }

theorem Orderly.settle (h : Orderly s cut) {held : Held} {ok out ended : Bool}
    (hphase : (s.sessions i).phase = .reached (.body held ok)) (hout : out = true → ok = true)
    (hundo : held.savepoint = true → out = false → ended = true ∧ cut = false)
    (hcut : cut' = false → s.side.file.inSavepoint = true →
      (s.settle i held out ended).side.file.inSavepoint = true → cut = false) :
    Orderly (s.settle i held out ended) cut' ∧ Shows s (s.settle i held out ended) i := by
  have hold := (h.sees i).holds (by rw [hphase]; rfl)
  have hin := (h.sees i).owns
  rw [hphase] at hin
  rw [Sys.settle] at hcut ⊢
  cases hsaved : held.savepoint with
  | true =>
      rw [if_pos rfl]
      cases out with
      | true =>
          have hgood : (s.sessions i).phase.doomed = false := by
            rw [hphase, hout rfl]
            rfl
          have hmoved : Orderly (s.goto i (.staging (.leaving .statement held.entered ended)))
              cut := h.moves _ rfl (fun _ => hold) (fun hp => by cases hp) (fun _ hp => by cases hp)
            (fun _ hp => by cases hp) fun hd => by
              rw [hgood] at hd
              cases hd
          refine ⟨hmoved.release hold ended ?_, .committed rfl rfl rfl⟩
          rw [goto_self]
          rfl
      | false =>
          obtain ⟨rfl, rfl⟩ := hundo hsaved rfl
          rw [if_neg Bool.false_ne_true, Bool.or_true, if_pos rfl]
          exact h.undoes hold (hin hsaved) _ rfl rfl rfl
  | false =>
      simp only [hsaved, Bool.false_eq_true, if_false] at hcut ⊢
      refine ⟨((h.notes fun hc hs => hcut hc hs hs).moves _ rfl (fun _ => hold)
        (fun hp => by cases hp) (fun _ hp => by cases hp) (fun _ hp => by cases hp) fun hd => ?_),
        Shows.of_same rfl rfl rfl⟩
      rw [hphase] at hd
      cases ok <;> simp [Phase.doomed, Point.doomed, hsaved] at hd

theorem Orderly.idles (h : Orderly s cut) (hphase : (s.sessions i).phase = .idle) (ok : Bool) :
    Orderly (s.answer i ok) cut :=
  h.answer ok (fun _ => by rw [hphase]; rfl) (by rw [hphase]; rfl)

/-- Between two statements an explicit transaction begins or ends. -/
theorem Orderly.txn (h : Orderly s cut) (hphase : (s.sessions i).phase = .idle) (txn : Bool)
    (reply : Session → Option Bool) :
    Orderly (s.on i fun se => { se with txn, answer := reply se }) cut := by
  refine h.moves _ rfl (fun hp => ?_) (fun hp => ?_) (fun _ => id) (fun p hp => ?_) id
  · rw [hphase] at hp
    cases hp
  · rw [hphase] at hp
    cases hp
  · rw [Session.staged, hphase] at hp
    cases hp

theorem on_txn_phase (s : Sys) (i : ℕ) (txn : Bool) :
    ((s.on i fun se => { se with txn }).sessions i).phase = (s.sessions i).phase := by
  rw [show (s.on i fun se => { se with txn }).sessions i = { s.sessions i with txn } from
    upd_self _ _ _]

theorem Orderly.commit (h : Orderly s cut) (ended : Bool)
    (hphase : (s.sessions i).phase = .idle)
    (hcut : cut' = false → s.side.file.inSavepoint = true →
      (s.commit i ended).side.file.inSavepoint = true → cut = false) :
    Orderly (s.commit i ended) cut' ∧ Shows s (s.commit i ended) i := by
  have htxn : Orderly (s.on i fun se => { se with txn := false }) cut := h.txn hphase false Session.answer
  have hphase' := (on_txn_phase s i false).trans hphase
  rw [Sys.commit] at hcut ⊢
  by_cases hin : (s.sessions i).txn = true
  · rw [if_pos hin] at hcut ⊢
    generalize hs' : (s.on i fun se => { se with txn := false }) = t at *
    have hside : t.side = s.side := by rw [← hs']; rfl
    by_cases htake : t.holder = some i ∧ t.side.file.inSavepoint = true
    · simp only [if_pos htake]
      have hrel : Orderly (t.release ended) cut' :=
        htxn.release htake.1 ended (by rw [hphase']; rfl)
      have hidle : ((t.release ended).sessions i).phase = .idle := hphase'
      have hleft := hrel.leave htake.1 ended (by rw [hidle]; rfl) (by rw [hidle]; rfl)
      obtain ⟨-, hsess, -⟩ := leave_frame (t.release ended) ended
      obtain ⟨hdone, hrunning, hpublished⟩ := leave_txn (t.release ended) ended
      have hfrom : t.done = s.done ∧ t.running = s.running ∧ t.published = s.published := by
        rw [← hs']
        exact ⟨rfl, rfl, rfl⟩
      refine ⟨hleft.idles (by rw [hsess]; exact hidle) ended, .committed ?_ ?_ hrunning⟩
      · exact hpublished.trans hfrom.2.2
      · change ((t.release ended).leave ended).done = _
        rw [hdone]
        simp only [Sys.release, hfrom]
    · simp only [if_neg htake] at hcut ⊢
      refine ⟨(htxn.notes fun hc hs => ?_).idles hphase' true, ?_⟩
      · exact hcut hc (hside ▸ hs) hs
      · rw [← hs']
        exact Shows.of_same rfl rfl rfl
  · rw [if_neg hin] at hcut ⊢
    exact ⟨(h.notes fun hc hs => hcut hc hs hs).idles hphase false, Shows.of_same rfl rfl rfl⟩

theorem Orderly.rollback (h : Orderly s cut) {reopened : Bool}
    (hphase : (s.sessions i).phase = .idle)
    (hundo : (s.sessions i).txn = true → s.holder = some i → s.side.file.inSavepoint = true →
      reopened = true ∧ cut = false)
    (hcut : cut' = false → s.side.file.inSavepoint = true →
      (s.rollback i reopened).side.file.inSavepoint = true → cut = false) :
    Orderly (s.rollback i reopened) cut' ∧ Shows s (s.rollback i reopened) i := by
  have htxn : Orderly (s.on i fun se => { se with txn := false }) cut := h.txn hphase false Session.answer
  have hphase' := (on_txn_phase s i false).trans hphase
  rw [Sys.rollback] at hcut ⊢
  by_cases hin : (s.sessions i).txn = true
  · rw [if_pos hin] at hcut ⊢
    by_cases htake : s.holder = some i ∧ s.side.file.inSavepoint = true
    · obtain ⟨rfl, rfl⟩ := hundo hin htake.1 htake.2
      have hopen : (s.side.writer.isNone || true) = true := Bool.or_true _
      have htake' : (s.on i fun se => { se with txn := false }).holder = some i ∧
          (s.on i fun se => { se with txn := false }).side.file.inSavepoint = true := htake
      simp only [if_pos htake', Bool.or_true, if_true]
      obtain ⟨hback, hshows⟩ := htxn.undoes htake.1 htake.2
        (fun se => { se with phase := .sharing .ended }) rfl rfl rfl
      exact ⟨hback, hshows.of_on⟩
    · have hno : ¬ ((s.on i fun se => { se with txn := false }).holder = some i ∧
          (s.on i fun se => { se with txn := false }).side.file.inSavepoint = true) := htake
      simp only [if_neg hno] at hcut ⊢
      exact ⟨(htxn.notes fun hc hs => hcut hc hs hs).idles hphase' true,
        Shows.of_same rfl rfl rfl⟩
  · rw [if_neg hin] at hcut ⊢
    exact ⟨(h.notes fun hc hs => hcut hc hs hs).idles hphase false, Shows.of_same rfl rfl rfl⟩

end Sys

end Zu.Shared
