import Zu.Shared.Covered

/-!
# What the write side stands for

The roots and the frames above their floor are the changes of the committed
transactions and of the one that is running. `Accounts` says so of the write side, and
that the header of an open savepoint and the frames below its floor are the changes of
the committed ones alone, as long as no fold has taken those frames away.
-/

namespace Zu.Shared

/-- The header an open savepoint goes back to, and where the log stood. -/
def File.origin (f : File) : Option (Header × ℕ) :=
  f.savepoint.map fun saved => (saved.db, saved.logFloor)

namespace File

theorem origin_stageDeferred (f : File) : f.stageDeferred.origin = f.origin := by
  cases hs : f.savepoint <;> simp [origin, stageDeferred, hs]

theorem origin_keepSavepoint (f : File) : f.keepSavepoint.origin = f.origin := by
  cases hs : f.savepoint with
  | none => simp [origin, keepSavepoint, hs]
  | some held =>
      simp only [origin, keepSavepoint, hs]
      split_ifs <;> simp [hs]

theorem origin_stageFold (f : File) : f.stageFold.origin = f.origin := origin_stageDeferred f

theorem origin_checkpoint (f : File) : f.checkpoint.origin = f.origin :=
  (origin_stageDeferred f.keepSavepoint).trans (origin_keepSavepoint f)

theorem inSavepoint_iff_origin (f : File) : f.inSavepoint = f.origin.isSome := by
  cases hs : f.savepoint <;> simp [origin, inSavepoint, hs]

theorem origin_of_not_inSavepoint {f : File} (h : f.inSavepoint = false) : f.origin = none := by
  rwa [inSavepoint_iff_origin, Option.isSome_eq_false_iff, Option.isNone_iff_eq_none] at h

end File

/-- The commits in the log below the floor of the open savepoint that its header has
not taken in. -/
def WriteSide.below (side : WriteSide) : Option (List ℕ) :=
  side.file.origin.map fun o => replayed o.1.walSeq (cutAbove o.2 side.log)

theorem replayed_append (walSeq : ℕ) (log log' : List Frame) :
    replayed walSeq (log ++ log') = replayed walSeq log ++ replayed walSeq log' := by
  simp [replayed]

theorem replayed_of_le {walSeq : ℕ} {log : List Frame} (h : ∀ f ∈ log, f.epoch ≤ walSeq) :
    replayed walSeq log = [] := by
  rw [replayed, List.map_eq_nil_iff, List.filter_eq_nil_iff]
  intro f hf
  simpa using h f hf

theorem cutAbove_of_le {floor : ℕ} {log : List Frame} (h : ∀ f ∈ log, f.epoch ≤ floor) :
    cutAbove floor log = log :=
  List.takeWhile_eq_self_iff.2 fun f hf => decide_eq_true (h f hf)

theorem cutAbove_append {floor : ℕ} (log : List Frame) (f : Frame) (h : floor < f.epoch) :
    cutAbove floor (log ++ [f]) = cutAbove floor log := by
  rw [cutAbove, List.takeWhile_append]
  have hf : [f].takeWhile (fun f => decide (f.epoch ≤ floor)) = [] := by
    simp [Nat.not_le.2 h]
  split_ifs with hall
  · rw [hf, List.append_nil]
    exact (List.takeWhile_sublist _).eq_of_length hall |>.symm
  · rfl

/-- The write side accounts for the committed transactions and the one running. Where
`cut` is set, a commit below the floor of the open savepoint has left the log. -/
structure Accounts (side : WriteSide) (done : List (List ℕ)) (running : List ℕ) (next : ℕ)
    (cut : Bool) : Prop where
  nodup : (done.flatten ++ running).Nodup
  lt : ∀ c ∈ done.flatten ++ running, c < next
  whole : (side.file.db.roots ++ replayed side.file.db.walSeq side.log).Perm
    (done.flatten ++ running)
  overlay : ∀ w, side.writer = some w → w.overlay = replayed side.file.db.walSeq side.log
  epochs : ∀ w, side.writer = some w → ∀ f ∈ side.log, f.epoch ≤ w.epoch
  walSeq_le : ∀ w, side.writer = some w → side.file.db.walSeq ≤ w.epoch
  idle : side.file.origin = none → running = []
  saved : ∀ db floor, side.file.origin = some (db, floor) → cut = false →
    (db.roots ++ replayed db.walSeq (cutAbove floor side.log)).Perm done.flatten
  floor_le : ∀ db floor, side.file.origin = some (db, floor) →
    ∀ w, side.writer = some w → floor ≤ w.epoch

namespace Accounts

variable {side : WriteSide} {done : List (List ℕ)} {running : List ℕ} {next : ℕ} {cut : Bool}

theorem weaken (h : Accounts side done running next cut) {cut' : Bool}
    (hcut : cut' = false → cut = false ∨ side.file.origin = none) :
    Accounts side done running next cut' :=
  { h with
    saved := fun db floor ho hc => by
      rcases hcut hc with hc | hnone
      · exact h.saved db floor ho hc
      · rw [hnone] at ho
        cases ho }

theorem whole_overlay (h : Accounts side done running next cut) {w : Writer}
    (hw : side.writer = some w) :
    (side.file.db.roots ++ w.overlay).Perm (done.flatten ++ running) := by
  rw [h.overlay w hw]
  exact h.whole

/-- The readers of a side whose patches are complete read all of it. -/
theorem changes (h : Accounts side done running next cut) {w : Writer}
    (hw : side.writer = some w) (heven : w.patches = w.overlay) :
    side.changes.Perm (done.flatten ++ running) := by
  have hpatches : side.patches = w.overlay := by simp [WriteSide.patches, hw, heven]
  rw [WriteSide.changes, hpatches]
  exact h.whole_overlay hw

/-- A change is made: it is the newest, in the transaction that is open or in one by
itself. -/
theorem made {done' : List (List ℕ)} {running' : List ℕ} {side' : WriteSide}
    (h : Accounts side done running next cut)
    (hdone : if side.file.inSavepoint then done' = done ∧ running' = running ++ [next]
      else done' = done ++ [[next]] ∧ running' = running)
    (hwhole : (side'.file.db.roots ++ replayed side'.file.db.walSeq side'.log).Perm
      (side.file.db.roots ++ replayed side.file.db.walSeq side.log ++ [next]))
    (horigin : side'.file.origin = side.file.origin) (hbelow : side'.below = side.below)
    (hoverlay : ∀ w, side'.writer = some w →
      w.overlay = replayed side'.file.db.walSeq side'.log)
    (hepochs : ∀ w, side'.writer = some w → ∀ f ∈ side'.log, f.epoch ≤ w.epoch)
    (hwal : ∀ w, side'.writer = some w → side'.file.db.walSeq ≤ w.epoch)
    (hfloor : ∀ w, side'.writer = some w → ∃ w', side.writer = some w' ∧ w'.epoch ≤ w.epoch) :
    Accounts side' done' running' (next + 1) cut := by
  have hall : (done'.flatten ++ running').Perm (done.flatten ++ running ++ [next]) := by
    split_ifs at hdone with hin
    · rw [hdone.1, hdone.2, List.append_assoc]
    · have hrun : running = [] := h.idle (by
        rw [File.inSavepoint_iff_origin, Bool.not_eq_true, Option.isSome_eq_false_iff,
          Option.isNone_iff_eq_none] at hin
        exact hin)
      rw [hdone.1, hdone.2, hrun]
      simp
  have hnew : next ∉ done.flatten ++ running := fun hn => absurd (h.lt next hn) (lt_irrefl _)
  refine
    { nodup := hall.nodup_iff.2 (List.Nodup.append h.nodup (List.nodup_singleton next) ?_)
      lt := fun c hc => (hall.subset hc |> List.mem_append.1).elim
        (fun hc => (h.lt c hc).trans (Nat.lt_succ_self _))
        fun hc => by rw [List.mem_singleton.1 hc]; exact Nat.lt_succ_self _
      whole := (hwhole.trans (h.whole.append_right _)).trans hall.symm
      overlay := hoverlay
      epochs := hepochs
      walSeq_le := hwal
      idle := fun ho => ?_
      saved := fun db floor ho hc => ?_
      floor_le := fun db floor ho w hw => ?_ }
  · intro c hc hc'
    rw [List.mem_singleton.1 hc'] at hc
    exact hnew hc
  · rw [horigin] at ho
    have hin : side.file.inSavepoint = false := by
      rw [File.inSavepoint_iff_origin, ho]
      rfl
    rw [if_neg (by rw [hin]; exact Bool.false_ne_true)] at hdone
    rw [hdone.2]
    exact h.idle ho
  · have hin : side.file.inSavepoint = true := by
      rw [File.inSavepoint_iff_origin, ← horigin, ho]
      rfl
    rw [if_pos hin] at hdone
    have hsame : replayed db.walSeq (cutAbove floor side'.log) =
        replayed db.walSeq (cutAbove floor side.log) := by
      have hmap := hbelow
      rw [WriteSide.below, WriteSide.below, ← horigin, ho] at hmap
      exact Option.some.inj hmap
    rw [hsame, hdone.1]
    exact h.saved db floor (horigin ▸ ho) hc
  · obtain ⟨w', hw', hle⟩ := hfloor w hw
    exact (h.floor_le db floor (horigin ▸ ho) w' hw').trans hle

/-- The same changes, regrouped: the frames below the floor stay, or losing them is
noted. -/
theorem regroup {side' : WriteSide} {cut' : Bool} (h : Accounts side done running next cut)
    (hwhole : (side'.file.db.roots ++ replayed side'.file.db.walSeq side'.log).Perm
      (side.file.db.roots ++ replayed side.file.db.walSeq side.log))
    (horigin : side'.file.origin = side.file.origin)
    (hbelow : cut' = false → side.file.origin ≠ none → cut = false ∧ side'.below = side.below)
    (hoverlay : ∀ w, side'.writer = some w →
      w.overlay = replayed side'.file.db.walSeq side'.log)
    (hepochs : ∀ w, side'.writer = some w → ∀ f ∈ side'.log, f.epoch ≤ w.epoch)
    (hwal : ∀ w, side'.writer = some w → side'.file.db.walSeq ≤ w.epoch)
    (hfloor : ∀ w, side'.writer = some w → side.file.origin = none ∨
      ∃ w', side.writer = some w' ∧ w'.epoch ≤ w.epoch) :
    Accounts side' done running next cut' where
  nodup := h.nodup
  lt := h.lt
  whole := hwhole.trans h.whole
  overlay := hoverlay
  epochs := hepochs
  walSeq_le := hwal
  idle ho := h.idle (horigin ▸ ho)
  saved db floor ho hc := by
    rw [horigin] at ho
    obtain ⟨hcut, hsame⟩ := hbelow hc (by rw [ho]; exact Option.some_ne_none _)
    rw [WriteSide.below, WriteSide.below, horigin, ho] at hsame
    have hsame' : replayed db.walSeq (cutAbove floor side'.log) =
        replayed db.walSeq (cutAbove floor side.log) := Option.some.inj hsame
    rw [hsame']
    exact h.saved db floor ho hcut
  floor_le db floor ho w hw := by
    rw [horigin] at ho
    rcases hfloor w hw with hnone | ⟨w', hw', hle⟩
    · rw [hnone] at ho
      cases ho
    · exact (h.floor_le db floor ho w' hw').trans hle

/-! ### The operations of the write side -/

/-- Frames that are logged are above the floor of an open savepoint. -/
theorem below_logFrames (h : Accounts side done running next cut) {w : Writer}
    (hw : side.writer = some w) {c fin : ℕ} {writer : Option Writer} :
    ({ file := side.file.keepSavepoint, writer,
       log := side.log ++ [⟨c, w.epoch + 1, fin⟩] } : WriteSide).below = side.below := by
  simp only [WriteSide.below, File.origin_keepSavepoint]
  cases ho : side.file.origin with
  | none => rfl
  | some o =>
      have hlt : o.2 < w.epoch + 1 := Nat.lt_succ_of_le (h.floor_le o.1 o.2 ho w hw)
      simp only [Option.map_some, cutAbove_append side.log ⟨c, w.epoch + 1, fin⟩ hlt]

theorem logFrames (h : Accounts side done running next cut) {w : Writer} {fin : ℕ}
    {done' : List (List ℕ)} {running' : List ℕ} (hw : side.writer = some w)
    (hdone : if side.file.inSavepoint then done' = done ∧ running' = running ++ [next]
      else done' = done ++ [[next]] ∧ running' = running) :
    Accounts
      { file := side.file.keepSavepoint
        writer := some { w with epoch := w.epoch + 1, overlay := w.overlay ++ [next] }
        log := side.log ++ [{ change := next, epoch := w.epoch + 1, fin }] }
      done' running' (next + 1) cut := by
  have hone : replayed side.file.db.walSeq
      [({ change := next, epoch := w.epoch + 1, fin } : Frame)] = [next] := by
    simp [replayed, Nat.lt_succ_of_le (h.walSeq_le w hw)]
  refine h.made hdone ?_ ?_ ?_ ?_ ?_ ?_ ?_
  · simp only [File.keepSavepoint_db, replayed_append, hone, List.append_assoc]
    exact List.Perm.refl _
  · exact File.origin_keepSavepoint _
  · exact h.below_logFrames hw
  · intro w' hw'
    cases hw'
    simp only [File.keepSavepoint_db, replayed_append, hone, h.overlay w hw]
  · intro w' hw' f hf
    cases hw'
    rcases List.mem_append.1 hf with hf | hf
    · exact (h.epochs w hw f hf).trans (Nat.le_succ _)
    · rw [List.mem_singleton.1 hf]
  · intro w' hw'
    cases hw'
    simpa using (h.walSeq_le w hw).trans (Nat.le_succ _)
  · intro w' hw'
    cases hw'
    exact ⟨w, hw, Nat.le_succ _⟩

theorem stagePatch (h : Accounts side done running next cut) {w : Writer}
    (hw : side.writer = some w) (c : ℕ) :
    Accounts
      { side with
        file := side.file.stageDeferred
        writer := some { w with patches := w.patches ++ [c] } }
      done running next cut := by
  refine h.regroup (List.Perm.refl _) (File.origin_stageDeferred _)
    (fun hc _ => ⟨hc, ?_⟩) ?_ ?_ ?_ ?_
  · simp only [WriteSide.below, File.origin_stageDeferred]
  · intro w' hw'
    cases hw'
    exact h.overlay w hw
  · intro w' hw'
    cases hw'
    exact h.epochs w hw
  · intro w' hw'
    cases hw'
    exact h.walSeq_le w hw
  · intro w' hw'
    cases hw'
    exact Or.inr ⟨w, hw, le_rfl⟩

theorem stagedFold (h : Accounts side done running next cut) {w : Writer}
    (hw : side.writer = some w) : Accounts (side.stagedFold w) done running next cut := by
  have hnone : replayed w.epoch side.log = [] := replayed_of_le (h.epochs w hw)
  refine h.regroup ?_ (File.origin_stageFold _) (fun hc _ => ⟨hc, ?_⟩) ?_ ?_ ?_ ?_
  · change (side.file.db.roots ++ w.overlay ++ replayed w.epoch side.log).Perm _
    rw [hnone, List.append_nil, h.overlay w hw]
  · change (side.file.stageFold.origin.map _) = _
    rw [File.origin_stageFold]
    rfl
  · intro w' hw'
    cases hw'
    exact hnone.symm
  · intro w' hw'
    cases hw'
    exact h.epochs w hw
  · intro w' hw'
    cases hw'
    exact le_rfl
  · intro w' hw'
    cases hw'
    exact Or.inr ⟨w, hw, le_rfl⟩

/-- A fold that empties the log takes the frames below the floor with it. -/
theorem checkpointFold (h : Accounts side done running next cut) {w : Writer} {cut' : Bool}
    (hw : side.writer = some w)
    (hcut : cut' = false → side.file.origin ≠ none →
      cut = false ∧ (side.checkpointFold w).below = side.below) :
    Accounts (side.checkpointFold w) done running next cut' := by
  refine h.regroup ?_ (File.origin_checkpoint _) hcut ?_ ?_ ?_ ?_
  · simp [WriteSide.checkpointFold, WriteSide.foldRoots, replayed, h.overlay w hw]
  · intro w' hw'
    cases hw'
    simp [WriteSide.checkpointFold, WriteSide.foldRoots, replayed]
  · intro w' _ f hf
    cases hf
  · intro w' hw'
    cases hw'
    simp [WriteSide.checkpointFold, WriteSide.foldRoots]
  · intro w' hw'
    cases hw'
    exact Or.inr ⟨w, hw, le_rfl⟩

theorem le_foldl_max_of_mem {xs : List ℕ} {x : ℕ} (n : ℕ) (h : x ∈ xs) : x ≤ xs.foldl max n := by
  induction xs generalizing n with
  | nil => cases h
  | cons y ys ih =>
      rcases List.mem_cons.1 h with rfl | h
      · exact (le_max_right n x).trans (Sys.le_foldl_max ys _)
      · exact ih _ h

/-- A writer that is opened recovers what the log holds above the roots. -/
theorem recovered (h : Accounts side done running next cut) (ho : side.file.origin = none)
    (gen : ℕ) :
    Accounts { side with writer := some (side.recovered gen) } done running next cut := by
  refine h.regroup (List.Perm.refl _) rfl (fun _ hne => absurd ho hne) ?_ ?_ ?_ fun _ _ => Or.inl ho
  · intro w hw
    cases hw
    rfl
  · intro w hw f hf
    cases hw
    exact le_foldl_max_of_mem _ (List.mem_map_of_mem hf)
  · intro w hw
    cases hw
    exact Sys.le_foldl_max _ _

theorem store (h : Accounts side done running next cut) {done' : List (List ℕ)}
    {running' : List ℕ} {file : File}
    (hfile : file = { side.file with
      db := { side.file.db with roots := side.file.db.roots ++ [next] } })
    (hdone : if side.file.inSavepoint then done' = done ∧ running' = running ++ [next]
      else done' = done ++ [[next]] ∧ running' = running) :
    Accounts { side with file := file.checkpoint } done' running' (next + 1) cut := by
  have horigin : file.checkpoint.origin = side.file.origin := by
    rw [File.origin_checkpoint, hfile]
    rfl
  have hdb : file.checkpoint.db.roots = side.file.db.roots ++ [next] ∧
      file.checkpoint.db.walSeq = side.file.db.walSeq := by
    rw [File.checkpoint_db, hfile]
    exact ⟨rfl, rfl⟩
  refine h.made hdone ?_ horigin ?_ ?_ h.epochs ?_ fun w hw => ⟨w, hw, le_rfl⟩
  · simp only [hdb, List.append_assoc]
    exact List.Perm.append_left _ List.perm_append_comm
  · simp only [WriteSide.below, horigin]
  · intro w hw
    rw [h.overlay w hw, hdb.2]
  · intro w hw
    rw [hdb.2]
    exact h.walSeq_le w hw

/-- A savepoint is taken: the frames of the log are all below its floor. -/
theorem begin (h : Accounts side done running next cut) {w : Writer} {across cut' : Bool}
    (hw : side.writer = some w) (ho : side.file.origin = none) :
    Accounts { side with file := side.file.beginSavepoint across w.epoch } done running next
      cut' where
  nodup := h.nodup
  lt := h.lt
  whole := h.whole
  overlay := h.overlay
  epochs := h.epochs
  walSeq_le := h.walSeq_le
  idle _ := h.idle ho
  saved db floor ho' _ := by
    cases ho'
    have hrun := h.whole
    rw [h.idle ho, List.append_nil] at hrun
    rw [cutAbove_of_le (h.epochs w hw)]
    exact hrun
  floor_le db floor ho' w' hw' := by
    cases ho'
    rw [hw] at hw'
    cases hw'
    exact le_rfl

theorem release (h : Accounts side done running next cut) (ended cut' : Bool) :
    Accounts { side with file := side.file.releaseSavepoint ended } (done ++ [running]) [] next
      cut' := by
  have hdb : (side.file.releaseSavepoint ended).db = side.file.db ∧
      (side.file.releaseSavepoint ended).origin = none := by
    unfold File.releaseSavepoint
    split
    · rename_i hnone
      exact ⟨rfl, by simp [File.origin, hnone]⟩
    · exact ⟨rfl, rfl⟩
  have hall : (done ++ [running]).flatten ++ [] = done.flatten ++ running := by simp
  exact
    { nodup := hall ▸ h.nodup
      lt := hall ▸ h.lt
      whole := by
        rw [hall, hdb.1]
        exact h.whole
      overlay := by
        rw [hdb.1]
        exact h.overlay
      epochs := h.epochs
      walSeq_le := by
        rw [hdb.1]
        exact h.walSeq_le
      idle := fun _ => rfl
      saved := fun db floor ho => by
        rw [hdb.2] at ho
        cases ho
      floor_le := fun db floor ho => by
        rw [hdb.2] at ho
        cases ho }

/-- The transaction that is running is taken back, with its frames. -/
theorem rollback (h : Accounts side done running next false) {saved : Savepoint} {cut' : Bool}
    (hs : side.file.savepoint = some saved) :
    Accounts
      { file := side.file.rollbackSavepoint, writer := none
        log := cutAbove saved.logFloor side.log }
      done [] next cut' := by
  have hdb : side.file.rollbackSavepoint.db.roots = saved.db.roots ∧
      side.file.rollbackSavepoint.db.walSeq = saved.db.walSeq ∧
      side.file.rollbackSavepoint.origin = none := by
    simp only [File.rollbackSavepoint, hs]
    split_ifs <;> exact ⟨rfl, rfl, rfl⟩
  have horigin : side.file.origin = some (saved.db, saved.logFloor) := by
    rw [File.origin, hs]
    rfl
  exact
    { nodup := (List.append_nil done.flatten).symm ▸ h.nodup.sublist (List.sublist_append_left _ _)
      lt := fun c hc => h.lt c (List.mem_append_left _ (by simpa using hc))
      whole := by
        simp only [hdb]
        simpa using h.saved saved.db saved.logFloor horigin rfl
      overlay := fun w hw => by cases hw
      epochs := fun w hw => by cases hw
      walSeq_le := fun w hw => by cases hw
      idle := fun _ => rfl
      saved := fun db floor ho => by
        simp only [hdb] at ho
        cases ho
      floor_le := fun db floor ho => by
        simp only [hdb] at ho
        cases ho }

end Accounts

end Zu.Shared
