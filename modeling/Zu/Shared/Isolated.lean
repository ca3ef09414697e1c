import Zu.Shared.Writes

/-!
# Transactions are isolated

`Watch` is the state with what a run up to it has shown of a transaction before its
end. In every run in which no other session takes up such a state, and no undo finds
the log cut under it, what another session reads is a prefix of the committed
transactions.
-/

namespace Zu.Shared

/-- What the last state installed shows of a transaction that was running when it was
installed. -/
inductive Shown
  | clean
  /-- Its first changes, while it is still running. -/
  | part (m : ℕ)
  /-- Some of the changes of one that has since been taken back, or committed with
  more. -/
  | torn
  deriving DecidableEq, Repr

/-- What is shown after a section, `mine` if the session that took it holds the side. -/
def Shown.after (shown : Shown) (s u : Sys) (mine : Bool) : Shown :=
  if u.published.version ≠ s.published.version then
    if mine ∧ s.running ≠ [] then .part s.running.length else .clean
  else if s.running ≠ [] ∧ u.running = [] then
    match shown with
    | .part m => if m = s.running.length ∧ u.done ≠ s.done then .clean else .torn
    | shown => shown
  else shown

attribute [grind =] Shown.after

/-- Which session takes a section. -/
def Act.session : Act → Option ℕ
  | .log _ _ => none
  | .read i | .start i | .commit i _ | .rollback i _ | .enter i _ _ | .marks i | .install i
  | .capture i | .follow i _ | .hold i | .write i _ _ | .store i | .publishSide i
  | .foldPatches i | .settle i _ _ | .leave i | .durable i | .landed i => some i

/-- The state, with what a run up to it has shown and cut. -/
structure Watch where
  sys : Sys
  shown : Shown
  /-- Whether a fold has taken a commit out of the log that is below the floor of the
  open savepoint and that its header does not hold. -/
  cut : Bool

namespace Watch

def new (epoch : ℕ) : Watch where
  sys := Sys.new epoch
  shown := .clean
  cut := false

def step (v : Watch) (a : Act) : Option Watch :=
  (Shared.step v.sys a).map fun u =>
    { sys := u
      shown := v.shown.after v.sys u (decide (a.session = v.sys.holder))
      cut := v.sys.side.file.inSavepoint && u.side.file.inSavepoint &&
        (v.cut || decide (u.side.below ≠ v.sys.side.below)) }

/-- Whether a section keeps transactions isolated. A session does not take up a state
that shows part of a transaction; a reload goes through; frames that are left without a
fold belong to a statement that will be undone; and an undo opens the writer again and
finds the log below its floor as it left it. -/
def fits (v : Watch) : Act → Bool
  | .read i =>
      decide (v.sys.holder = some i) ||
        decide ((v.sys.sessions i).seen = v.sys.published.version) || decide (v.shown = .clean)
  | .follow _ ok => ok
  | .write i .unfolded _ =>
      match (v.sys.sessions i).phase with
      | .reached (.body held _) => held.savepoint
      | _ => false
  | .settle i out ended =>
      match (v.sys.sessions i).phase with
      | .reached (.body held ok) => !held.savepoint || (out && ok) || (ended && !v.cut)
      | _ => true
  | .rollback i reopened =>
      !(v.sys.sessions i).txn || decide (v.sys.holder ≠ some i) ||
        !v.sys.side.file.inSavepoint || (reopened && !v.cut)
  | _ => true

def Fits (v : Watch) (a : Act) : Prop := v.fits a = true

end Watch

/-- What the last state installed holds. -/
def Shown.Means (s : Sys) : Shown → Prop
  | .clean => ∃ k, s.published.changes.Perm (s.done.take k).flatten
  | .part m => 0 < m ∧ m ≤ s.running.length ∧
      s.published.changes.Perm (s.done.flatten ++ s.running.take m)
  | .torn => True

theorem Shown.Means.keep {s u : Sys} {shown : Shown} (h : shown.Means s)
    (hpublished : u.published = s.published) (hdone : s.done <+: u.done)
    (hpart : ∀ m, shown ≠ .part m) : shown.Means u := by
  cases shown with
  | clean =>
      rw [Means, hpublished]
      exact Sys.prefix_mono hdone h
  | part m => exact absurd rfl (hpart m)
  | torn => trivial

theorem Shown.Means.not_part {s : Sys} {shown : Shown} (h : shown.Means s)
    (hrun : s.running = []) (m : ℕ) : shown ≠ .part m := by
  rintro rfl
  obtain ⟨hpos, hle, -⟩ := h
  rw [hrun] at hle
  exact absurd hle (Nat.not_le.2 hpos)

theorem Shown.after_of_published {s u : Sys} {shown : Shown} {mine : Bool}
    (hpublished : u.published = s.published) (hgoes : s.running = [] ∨ u.running ≠ []) :
    shown.after s u mine = shown := by
  have hsame : ¬ u.published.version ≠ s.published.version := by simp [hpublished]
  have hends : ¬ (s.running ≠ [] ∧ u.running = []) := fun ⟨hs, hu⟩ =>
    hgoes.elim (fun hg => hs hg) fun hg => hg hu
  simp only [Shown.after, hsame, hends, if_false]

/-- A transaction that ends leaves what was shown of it, unless all of it was shown and
it is committed. -/
theorem Shown.after_of_ended {s u : Sys} {mine : Bool} {m : ℕ}
    (hpublished : u.published = s.published) (hrun : s.running ≠ []) (hend : u.running = []) :
    (Shown.part m).after s u mine =
      if m = s.running.length ∧ u.done ≠ s.done then .clean else .torn := by
  have hsame : ¬ u.published.version ≠ s.published.version := by simp [hpublished]
  simp only [Shown.after, hsame, hrun, hend, ne_eq, not_false_eq_true, and_self, if_true, if_false]

theorem Shown.after_clean {s u : Sys} {mine : Bool} (hpublished : u.published = s.published) :
    Shown.clean.after s u mine = .clean := by
  simp [Shown.after, hpublished]

theorem Shown.after_torn {s u : Sys} {mine : Bool} (hpublished : u.published = s.published) :
    Shown.torn.after s u mine = .torn := by
  simp [Shown.after, hpublished]

/-- Where nothing is installed and no transaction that was running goes on. -/
theorem Shown.Means.ended {s u : Sys} {shown : Shown} {mine : Bool} (h : shown.Means s)
    (hpublished : u.published = s.published) (hdone : s.done <+: u.done) (hend : u.running = [])
    (hall : u.done ≠ s.done → u.done = s.done ++ [s.running]) :
    (shown.after s u mine).Means u := by
  cases shown with
  | clean =>
      rw [Shown.after_clean hpublished]
      exact h.keep hpublished hdone nofun
  | torn =>
      rw [Shown.after_torn hpublished]
      trivial
  | part m =>
      obtain ⟨hpos, hle, hperm⟩ := h
      have hrun : s.running ≠ [] := List.ne_nil_of_length_pos (hpos.trans_le hle)
      rw [Shown.after_of_ended hpublished hrun hend]
      split_ifs with hwhole
      · refine ⟨u.done.length, ?_⟩
        rw [List.take_length, hall hwhole.2, hpublished, List.flatten_append]
        rw [hwhole.1, List.take_length] at hperm
        simpa using hperm
      · trivial

theorem Shown.Means.after {s u : Sys} {i : ℕ} {shown : Shown} {mine : Bool}
    (h : shown.Means s) (hu : s.Shows u i)
    (hmine : u.published = s.published ∨ mine = decide (s.holder = some i)) :
    (shown.after s u mine).Means u := by
  cases hu with
  | on hpublished hdone hrunning =>
      have hgoes : s.running = [] ∨ u.running ≠ [] := by
        by_cases hs : s.running = []
        · exact Or.inl hs
        · refine Or.inr fun hu => hs ?_
          rw [hu] at hrunning
          exact List.prefix_nil.1 hrunning
      rw [Shown.after_of_published hpublished hgoes]
      cases shown with
      | clean => exact h.keep hpublished (hdone ▸ List.prefix_refl _) nofun
      | torn => trivial
      | part m =>
          obtain ⟨hpos, hle, hperm⟩ := h
          obtain ⟨rest, hrest⟩ := hrunning
          refine ⟨hpos, ?_, ?_⟩
          · rw [← hrest, List.length_append]
            exact hle.trans (Nat.le_add_right _ _)
          · rw [hpublished, hdone, ← hrest, List.take_append_of_le_length hle]
            exact hperm
  | alone hpublished hdone hrunning =>
      rw [Shown.after_of_published hpublished (Or.inl hrunning)]
      exact h.keep hpublished hdone (h.not_part hrunning)
  | committed hpublished hdone hrunning =>
      exact h.ended hpublished (hdone ▸ List.prefix_append _ _) hrunning fun _ => hdone
  | undone hpublished hdone hrunning =>
      exact h.ended hpublished (hdone ▸ List.prefix_refl _) hrunning fun hne => absurd hdone hne
  | installed hversion hdone hrunning hchanges =>
      have hmine' : mine = decide (s.holder = some i) :=
        hmine.resolve_left fun hp => hversion (by rw [hp])
      simp only [Shown.after, if_pos hversion, hmine', decide_eq_true_eq]
      split_ifs with hrun
      · refine ⟨List.length_pos_of_ne_nil hrun.2, by rw [hrunning], ?_⟩
        rw [hdone, hrunning, List.take_length]
        exact (Sys.Reads.holder hrun.1).1 hchanges
      · change ∃ k, u.published.changes.Perm (u.done.take k).flatten
        rw [hdone]
        by_cases hold : s.holder = some i
        · have hnil : s.running = [] := by_contra fun hne => hrun ⟨hold, hne⟩
          have hperm := (Sys.Reads.holder hold).1 hchanges
          rw [hnil, List.append_nil] at hperm
          exact ⟨s.done.length, by rwa [List.take_length]⟩
        · exact (Sys.Reads.other hold).1 hchanges

namespace Watch

/-- The write side is in order, every session sees what it should, and what was shown
and cut is known. -/
structure Inv (v : Watch) : Prop where
  orderly : v.sys.Orderly v.cut
  shown : v.shown.Means v.sys

/-- The sections that leave the write side alone. -/
theorem step_side {s u : Sys} {a : Act} (hu : Shared.step s a = some u)
    (ha : (match a with
      | .read _ | .start _ | .marks _ | .install _ | .capture _ | .follow _ _ | .publishSide _
      | .leave _ | .durable _ | .landed _ | .log _ _ => true
      | _ => false) = true) : u.side = s.side := by
  have hfollow : ∀ i ok, (s.follow i ok).side = s.side := by
    intro i ok
    rcases Sys.follow_eq s i ok with hs | ⟨header, patches, seen, hs⟩
    · rw [hs]
    · rw [hs]
      rfl
  cases a with
  | log g a =>
      simp only [Shared.step] at hu
      split_ifs at hu
      obtain ⟨l, -, rfl⟩ := Option.map_eq_some_iff.1 hu
      rfl
  | read i =>
      simp only [Shared.step] at hu
      split at hu <;> cases hu
      exact hfollow i true
  | start i | marks i | install i | capture i | publishSide i =>
      simp only [Shared.step] at hu
      split at hu <;> cases hu <;> rfl
  | follow i ok =>
      simp only [Shared.step] at hu
      split at hu <;> cases hu
      split_ifs <;> exact hfollow i ok
  | leave i =>
      simp only [Shared.step] at hu
      split at hu <;> cases hu
      · rename_i call taken ok hphase
        rw [Sys.afterLeave]
        split_ifs <;> exact (Sys.leave_frame s taken).1
      · exact (Sys.leave_frame s true).1
  | durable i =>
      simp only [Shared.step] at hu
      split at hu
      · rw [Sys.durable] at hu
        split at hu
        · obtain ⟨l, -, rfl⟩ := Option.map_eq_some_iff.1 hu
          rfl
        · cases hu
          exact (Sys.installPending_frame _ _ _).2.2
      · cases hu
  | landed i =>
      simp only [Shared.step] at hu
      split at hu
      · rw [Sys.landed] at hu
        split at hu <;> cases hu
        · exact (Sys.installPending_frame _ _ _).2.2
        · rfl
      · cases hu
  | _ => cases ha

/-- One section that fits keeps the sessions in order. -/
theorem Inv.moves {v : Watch} {u : Sys} {a : Act} {cut' : Bool} (h : Inv v) (hok : Fits v a)
    (hu : Shared.step v.sys a = some u) (hcut : v.sys.Notes u v.cut cut') :
    u.Orderly cut' ∧ ∃ i, v.sys.Shows u i ∧ (u.published = v.sys.published ∨ a.session = some i) := by
  have hs := h.orderly
  have hsame {i : ℕ} (hu' : u.Orderly v.cut ∧ v.sys.Shows u i) (ha : a.session = some i)
      (hin : u.side.file.inSavepoint = v.sys.side.file.inSavepoint) :
      u.Orderly cut' ∧ ∃ i, v.sys.Shows u i ∧
        (u.published = v.sys.published ∨ a.session = some i) :=
    ⟨hu'.1.notes fun hc hin' => (hcut hc (hin ▸ hin') hin').1, i, hu'.2, Or.inr ha⟩
  have hside (hkeep : u.side = v.sys.side) :
      u.side.file.inSavepoint = v.sys.side.file.inSavepoint := by rw [hkeep]
  cases a with
  | log g a =>
      simp only [Shared.step] at hu
      split_ifs at hu
      obtain ⟨l, -, rfl⟩ := Option.map_eq_some_iff.1 hu
      refine ⟨(hs.notes fun hc hin => (hcut hc hin hin).1).congr rfl rfl rfl rfl rfl rfl,
        0, Sys.Shows.of_same rfl rfl rfl, Or.inl rfl⟩
  | read i =>
      refine hsame (i := i) ?_ rfl (hside (step_side hu rfl))
      simp only [Shared.step] at hu
      split at hu <;> cases hu
      rename_i hphase
      refine ⟨hs.read hphase fun hold hseen => ?_, Sys.shows_follow v.sys i true⟩
      have hclean : v.shown = .clean := by
        simpa [Fits, fits, hold, hseen] using hok
      have hmeans := h.shown
      rw [hclean] at hmeans
      exact hmeans
  | start i =>
      refine hsame (i := i) ?_ rfl (hside (step_side hu rfl))
      simp only [Shared.step] at hu
      split at hu <;> cases hu
      rename_i hphase
      exact ⟨hs.txn hphase true fun se => some (!se.txn), Sys.Shows.of_same rfl rfl rfl⟩
  | commit i ended =>
      simp only [Shared.step] at hu
      split at hu <;> cases hu
      rename_i hphase
      obtain ⟨ho, hshow⟩ := hs.commit ended hphase fun hc hin hin' => (hcut hc hin hin').1
      exact ⟨ho, i, hshow, Or.inr rfl⟩
  | rollback i reopened =>
      simp only [Shared.step] at hu
      split at hu <;> cases hu
      rename_i hphase
      have hundo (htxn : (v.sys.sessions i).txn = true) (hold : v.sys.holder = some i)
          (hin : v.sys.side.file.inSavepoint = true) : reopened = true ∧ v.cut = false := by
        simpa [Fits, fits, htxn, hold, hin] using hok
      obtain ⟨ho, hshow⟩ := hs.rollback hphase hundo fun hc hin hin' => (hcut hc hin hin').1
      exact ⟨ho, i, hshow, Or.inr rfl⟩
  | enter i call opened =>
      simp only [Shared.step] at hu
      split at hu
      · rename_i hphase
        obtain ⟨ho, hshow, hin⟩ := hs.enter hphase hu
        exact hsame ⟨ho, hshow⟩ rfl hin
      · cases hu
  | marks i => exact hsame (hs.marks hu) rfl (hside (step_side hu rfl))
  | install i => exact hsame (hs.install hu) rfl (hside (step_side hu rfl))
  | capture i => exact hsame (hs.capture hu) rfl (hside (step_side hu rfl))
  | follow i ok =>
      have hok' : ok = true := hok
      subst hok'
      exact hsame (hs.follows hu) rfl (hside (step_side hu rfl))
  | hold i =>
      simp only [Shared.step] at hu
      split at hu <;> cases hu
      rename_i taken hphase
      obtain ⟨hin', hshow⟩ := Sys.hold_frame v.sys i taken
      exact ⟨hs.hold hphase fun hc hin => (hcut hc hin hin').1, i, hshow, Or.inr rfl⟩
  | write i out fin =>
      obtain ⟨ho, hshow⟩ := hs.writes hu hcut fun hout => by
        subst hout
        simp only [Fits, fits] at hok
        split at hok
        · exact ⟨_, _, ‹_›, hok⟩
        · cases hok
      exact ⟨ho, i, hshow, Or.inr rfl⟩
  | store i =>
      simp only [Shared.step] at hu
      split at hu <;> cases hu
      rename_i held hphase
      obtain ⟨ho, hshow, hin⟩ := hs.store hphase
      exact hsame ⟨ho, hshow⟩ rfl hin
  | publishSide i =>
      refine hsame (i := i) ?_ rfl (hside (step_side hu rfl))
      simp only [Shared.step] at hu
      split at hu <;> cases hu
      rename_i held hphase
      exact ⟨hs.publishSide hphase, Sys.Shows.of_same rfl rfl rfl⟩
  | foldPatches i =>
      simp only [Shared.step] at hu
      split at hu <;> cases hu
      rename_i held hphase
      exact ⟨hs.foldPatches hphase hcut, i, Sys.shows_foldPatches v.sys, Or.inr rfl⟩
  | settle i out ended =>
      simp only [Shared.step] at hu
      split at hu <;> cases hu
      rename_i held ok hphase
      obtain ⟨ho, hshow⟩ := hs.settle hphase (fun hb => (Bool.and_eq_true _ _ ▸ hb).2)
        (fun hsaved hout => by simpa [Fits, fits, hphase, hsaved, hout] using hok)
        fun hc hin hin' => (hcut hc hin hin').1
      exact ⟨ho, i, hshow, Or.inr rfl⟩
  | leave i => exact hsame (hs.leaves hu) rfl (hside (step_side hu rfl))
  | durable i =>
      refine hsame (i := i) ?_ rfl (hside (step_side hu rfl))
      simp only [Shared.step] at hu
      split at hu
      · exact hs.durable ‹_› hu
      · cases hu
  | landed i =>
      refine hsame (i := i) ?_ rfl (hside (step_side hu rfl))
      simp only [Shared.step] at hu
      split at hu
      · exact hs.landed ‹_› hu
      · cases hu

theorem Inv.step {v v' : Watch} {a : Act} (h : Inv v) (hok : Fits v a)
    (hu : Watch.step v a = some v') : Inv v' := by
  obtain ⟨u, hstep, rfl⟩ := Option.map_eq_some_iff.1 hu
  generalize hcut : (v.sys.side.file.inSavepoint && u.side.file.inSavepoint &&
    (v.cut || decide (u.side.below ≠ v.sys.side.below))) = cut'
  have hnotes : v.sys.Notes u v.cut cut' := by
    intro hc hin hin'
    rw [hin, hin', hc] at hcut
    simpa using hcut
  obtain ⟨ho, i, hshow, hwho⟩ := h.moves hok hstep hnotes
  refine ⟨ho, h.shown.after hshow (hwho.imp_right fun ha => ?_)⟩
  rw [ha]
  simp [eq_comm]

theorem inv_new (epoch : ℕ) : Inv (new epoch) where
  orderly :=
    { accounts :=
        { nodup := List.nodup_nil
          lt := fun _ hc => nomatch hc
          whole := List.Perm.refl _
          overlay := fun _ hw => nomatch hw
          epochs := fun _ hw => nomatch hw
          walSeq_le := fun _ hw => nomatch hw
          idle := fun _ => rfl
          saved := fun _ _ ho => nomatch ho
          floor_le := fun _ _ ho => nomatch ho }
      writer := fun _ hold => nomatch hold
      held := fun hin => nomatch hin
      even := Or.inl fun _ hw => nomatch hw
      sees := fun _ =>
        { holds := fun hp => nomatch hp
          owns := fun hp => nomatch hp
          view := fun _ => ⟨0, List.Perm.refl _⟩
          staged := fun _ hp => nomatch hp } }
  shown := ⟨0, List.Perm.refl _⟩

/-- In every run whose sections fit, what a session reads that does not hold the write
side, or has just taken it, is a prefix of the committed transactions, and nothing of
the transaction that is running. -/
theorem reads_committed {epoch : ℕ} {v : Watch} (h : Lib.Run Watch.step Fits (new epoch) v)
    (i : ℕ) (hi : v.sys.holder ≠ some i ∨ v.sys.running = [] ∧
      ∃ call taken, (v.sys.sessions i).phase = .reached (.entered call taken)) :
    (∃ k, ((v.sys.sessions i).view).Perm (v.sys.done.take k).flatten) ∧
      ∀ c ∈ v.sys.running, c ∉ (v.sys.sessions i).view := by
  have hinv := h.invariant (fun _ _ _ hv hok hu => hv.step hok hu) (inv_new epoch)
  have hsees := hinv.orderly.sees i
  have htaken : ∃ k, ((v.sys.sessions i).view).Perm (v.sys.done.take k).flatten := by
    rcases hi with hold | ⟨hrun, call, taken, hphase⟩
    · exact (Sys.Reads.other hold).1 (hsees.view fun hold' => absurd hold' hold)
    · have hold := hsees.holds (by rw [hphase]; rfl)
      have hview := (Sys.Reads.holder hold).1 (hsees.view fun _ => by rw [hphase]; rfl)
      rw [hrun, List.append_nil] at hview
      exact ⟨v.sys.done.length, by rwa [List.take_length]⟩
  refine ⟨htaken, fun c hc hview => ?_⟩
  obtain ⟨k, hk⟩ := htaken
  have hdone : c ∈ v.sys.done.flatten := by
    have hmem := hk.subset hview
    rw [List.mem_flatten] at hmem ⊢
    obtain ⟨txn, htxn, hc'⟩ := hmem
    exact ⟨txn, List.mem_of_mem_take htxn, hc'⟩
  exact (List.nodup_append.1 hinv.orderly.accounts.nodup).2.2 c hdone c hc rfl

/-- Session 0 writes in an explicit transaction, its statement is answered, and it
commits before session 1 reads. -/
def commitThenRead : List Act :=
  [.start 0, .enter 0 .statement true, .marks 0, .install 0, .follow 0 true, .hold 0,
    .write 0 .deferred 100, .capture 0, .marks 0, .follow 0 true, .settle 0 true true,
    .capture 0, .marks 0, .follow 0 true, .leave 0, .durable 0, .log 0 (.turn 0),
    .log 0 (.syncBegin 0), .log 0 (.syncEnd 0 true), .log 0 (.finish 0 1), .landed 0,
    .commit 0 true, .read 1]

/-- Session 1 reads the transaction once it is committed. -/
theorem reads_committed_commitThenRead :
    ∃ v, Lib.Run Watch.step Fits (new 0) v ∧ (v.sys.sessions 1).view = [0] ∧
      (∃ k, ((v.sys.sessions 1).view).Perm (v.sys.done.take k).flatten) ∧
        ∀ c ∈ v.sys.running, c ∉ (v.sys.sessions 1).view := by
  have hall : ((Lib.runAll (fun v a => if v.fits a then Watch.step v a else none) (new 0)
      commitThenRead).map fun v => ((v.sys.sessions 1).view, v.sys.holder)) =
        some ([0], none) := by decide
  obtain ⟨v, hv, heq⟩ := Option.map_eq_some_iff.1 hall
  simp only [Prod.mk.injEq] at heq
  have hrun : Lib.Run Watch.step Fits (new 0) v := Lib.Run.of_checked (fun _ _ hc => hc) hv
  have hother : v.sys.holder ≠ some 1 := by
    rw [heq.2]
    exact nofun
  exact ⟨v, hrun, heq.1, reads_committed hrun 1 (Or.inl hother)⟩

/-- Session 0 writes in an explicit transaction, its statement is answered, session 1
reads, and session 0 rolls back. -/
def readThenRollback : List Act :=
  [.start 0, .enter 0 .statement true, .marks 0, .install 0, .follow 0 true, .hold 0,
    .write 0 .deferred 100, .capture 0, .marks 0, .follow 0 true, .settle 0 true true,
    .capture 0, .marks 0, .follow 0 true, .leave 0, .durable 0, .log 0 (.turn 0),
    .log 0 (.syncBegin 0), .log 0 (.syncEnd 0 true), .log 0 (.finish 0 1), .landed 0,
    .read 1, .rollback 0 true]

/-- In the run of `readThenRollback` session 1 reads a change that is never committed. -/
theorem not_reads_committed :
    ¬ ∀ (epoch : ℕ) (s : Sys), Lib.Run Shared.step Lib.anyAction (Sys.new epoch) s →
      ∀ i, s.holder ≠ some i → (∃ k, ((s.sessions i).view).Perm (s.done.take k).flatten) ∧
        ∀ c ∈ s.running, c ∉ (s.sessions i).view := by
  intro h
  have hall : ((Lib.runAll Shared.step (Sys.new 0) readThenRollback).map fun s =>
      ((s.sessions 1).view, s.done, s.holder)) = some ([0], [], some 0) := by decide
  obtain ⟨s, hs, heq⟩ := Option.map_eq_some_iff.1 hall
  simp only [Prod.mk.injEq] at heq
  obtain ⟨hview, hdone, hholder⟩ := heq
  have hother : s.holder ≠ some 1 := by
    rw [hholder]
    decide
  obtain ⟨⟨k, hk⟩, -⟩ := h 0 s (Lib.Run.of_runAll hs fun _ _ _ => trivial) 1 hother
  rw [hview, hdone, List.take_nil] at hk
  exact absurd hk.length_eq (by decide)

end Watch

end Zu.Shared
