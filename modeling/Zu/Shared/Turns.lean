import Zu.Shared.Reads
import Zu.Shared.Visible

/-!
# The turns of a session

The sections that leave what the write side stands for: a session takes the side,
follows it, captures it, has it installed, gives it back.
-/

namespace Zu.Shared

open Wal (upd upd_self upd_of_ne)

namespace Sys

variable {s : Sys} {i : ℕ} {cut cut' : Bool}

theorem on_on (s : Sys) (i : ℕ) (f g : Session → Session) :
    (s.on i f).on i g = s.on i fun se => g (f se) := by
  have hsess : upd (upd s.sessions i (f (s.sessions i))) i
      (g (upd s.sessions i (f (s.sessions i)) i)) = upd s.sessions i (g (f (s.sessions i))) := by
    funext j
    by_cases hj : j = i
    · rw [hj, upd_self, upd_self, upd_self]
    · rw [upd_of_ne hj, upd_of_ne hj, upd_of_ne hj]
  exact congrArg (fun sessions => { s with sessions }) hsess

theorem Orderly.moves (h : Orderly s cut) (f : Session → Session)
    (hview : (f (s.sessions i)).view = (s.sessions i).view)
    (hhold : (f (s.sessions i)).phase.holding = true → s.holder = some i)
    (howns : (f (s.sessions i)).phase.owns = true → s.side.file.inSavepoint = true)
    (hsync : s.holder = some i → (f (s.sessions i)).phase.synced = true →
      (s.sessions i).phase.synced = true)
    (hstaged : ∀ p, (f (s.sessions i)).staged = some p → s.Reads i p.changes)
    (hdoomed : (s.sessions i).phase.doomed = true →
      (f (s.sessions i)).phase.doomed = true) : Orderly (s.on i f) cut := by
  have hself : (s.on i f).sessions i = f (s.sessions i) := upd_self _ _ _
  refine h.self f hdoomed ?_
  exact
    { holds := fun hp => hhold (hself ▸ hp)
      owns := fun hp => howns (hself ▸ hp)
      view := fun hs => by
        rw [hself] at hs ⊢
        rw [hview]
        exact (h.sees i).view fun hold => hsync hold (hs hold)
      staged := fun p hp => hstaged p (hself ▸ hp) }

/-- Less may be noted, as long as nothing cut is forgotten. -/
theorem Orderly.notes (h : Orderly s cut)
    (hcut : cut' = false → s.side.file.inSavepoint = true → cut = false) :
    Orderly s cut' where
  accounts := h.accounts.weaken fun hc => by
    cases hin : s.side.file.inSavepoint with
    | true => exact Or.inl (hcut hc hin)
    | false => exact Or.inr (File.origin_of_not_inSavepoint hin)
  writer := h.writer
  held := h.held
  even := h.even
  sees := h.sees

/-- The rest of the state does not count. -/
theorem Orderly.congr {u : Sys} (h : Orderly s cut) (hside : u.side = s.side)
    (hdone : u.done = s.done) (hrunning : u.running = s.running) (hnext : u.next = s.next)
    (hholder : u.holder = s.holder) (hsess : u.sessions = s.sessions) : Orderly u cut where
  accounts := by
    rw [hside, hdone, hrunning, hnext]
    exact h.accounts
  writer j hj := by
    rw [hside]
    exact h.writer j (hholder ▸ hj)
  held hin := by
    rw [hside] at hin
    rw [hholder]
    exact h.held hin
  even := by
    rcases h.even with heven | ⟨j, hj, hd⟩
    · exact Or.inl (hside ▸ heven)
    · exact Or.inr ⟨j, hholder ▸ hj, hsess ▸ hd⟩
  sees j := (h.sees j).frame (by rw [hsess]) (by rw [hholder]) (hdone ▸ List.prefix_refl _)
    fun _ => ⟨hdone, hrunning, by rw [hside]⟩

/-! ### Reading -/

theorem follow_holder (hold : s.holder = some i) :
    s.follow i true = s.on i fun se =>
      { se with
        seen := s.published.version
        header := s.side.file.db
        patches := s.side.patches } := by
  simp only [follow, if_pos hold, if_true]

theorem Orderly.followed (h : Orderly s cut) {p : Phase} (hold : s.holder = some i)
    (howns : p.owns = true → (s.sessions i).phase.owns = true)
    (hsync : p.synced = true → (s.sessions i).phase.doomed = false)
    (hstaged : ∀ q, ({ s.sessions i with phase := p } : Session).staged = some q →
      (s.sessions i).staged = some q)
    (hdoomed : (s.sessions i).phase.doomed = true → p.doomed = true) :
    Orderly ((s.follow i true).goto i p) cut := by
  rw [follow_holder hold, goto, on_on]
  refine h.self _ hdoomed ?_
  have hself : (s.on i fun se =>
      { se with
        phase := p
        seen := s.published.version
        header := s.side.file.db
        patches := s.side.patches }).sessions i =
      { s.sessions i with
        phase := p
        seen := s.published.version
        header := s.side.file.db
        patches := s.side.patches } := upd_self _ _ _
  exact
    { holds := fun _ => hold
      owns := fun hp => (h.sees i).owns (howns (by rw [hself] at hp; exact hp))
      view := fun hs => by
        have hp := hs hold
        rw [hself] at hp ⊢
        exact (Reads.holder hold).2 (h.side hold (hsync hp))
      staged := fun q hq => (h.sees i).staged q (hstaged q (by rw [hself] at hq; exact hq)) }

theorem Orderly.takes (h : Orderly s cut) {header : Header} {patches : List ℕ} {seen : ℕ} (hreads : s.Reads i (header.roots ++ patches)) :
    Orderly (s.on i fun se => { se with seen, header, patches }) cut := by
  have hself : (s.on i fun se => { se with seen, header, patches }).sessions i =
      { s.sessions i with seen, header, patches } := upd_self _ _ _
  refine h.self _ id ?_
  exact
    { holds := fun hp => (h.sees i).holds (by rw [hself] at hp; exact hp)
      owns := fun hp => (h.sees i).owns (by rw [hself] at hp; exact hp)
      view := fun _ => by
        rw [hself]
        exact hreads
      staged := fun q hq => (h.sees i).staged q (by rw [hself] at hq; exact hq) }

theorem Orderly.read (h : Orderly s cut) (hphase : (s.sessions i).phase = .idle)
    (hclean : s.holder ≠ some i → (s.sessions i).seen ≠ s.published.version →
      ∃ k, s.published.changes.Perm (s.done.take k).flatten) :
    Orderly (s.follow i true) cut := by
  by_cases hold : s.holder = some i
  · rw [follow_holder hold]
    exact h.takes ((Reads.holder hold).2 (h.side hold (by rw [hphase]; rfl)))
  · by_cases hseen : (s.sessions i).seen = s.published.version
    · have hsame : s.follow i true = s := by simp [follow, hold, hseen]
      rw [hsame]
      exact h
    · have htakes : s.follow i true = s.on i fun se =>
          { se with
            seen := s.published.version
            header := s.published.header
            patches := s.published.patches } := by
        simp [follow, hold, Ne.symm hseen]
      rw [htakes]
      exact h.takes ((Reads.other hold).2 (hclean hold hseen))

/-! ### Beginning and ending -/

theorem Orderly.answer (h : Orderly s cut) (ok : Bool)
    (hsync : s.holder = some i → (s.sessions i).phase.synced = true)
    (hdoomed : (s.sessions i).phase.doomed = false) : Orderly (s.answer i ok) cut :=
  h.moves _ rfl (fun hp => nomatch hp) (fun hp => nomatch hp) (fun hold _ => hsync hold)
    (fun _ hp => nomatch hp) fun hd => by
      rw [hdoomed] at hd
      cases hd

theorem on_leave (s : Sys) (i : ℕ) (taken : Bool) (f : Session → Session) :
    (s.leave taken).on i f = (s.on i f).leave taken := by
  have hside : (s.on i f).side = s.side := rfl
  unfold leave
  rw [hside]
  split_ifs <;> rfl

theorem leave_txn (s : Sys) (taken : Bool) :
    (s.leave taken).done = s.done ∧ (s.leave taken).running = s.running ∧
      (s.leave taken).published = s.published := by
  rw [Sys.leave]
  split_ifs <;> exact ⟨rfl, rfl, rfl⟩

theorem not_doomed_of_not_holding {p : Phase} (h : p.holding = false) : p.doomed = false := by
  cases p <;> first | rfl | cases h

/-- The side is given back, if it was taken here and no transaction needs it. -/
theorem Orderly.leave (h : Orderly s cut) (hold : s.holder = some i) (taken : Bool)
    (hphase : (s.sessions i).phase.holding = false)
    (hsync : (s.sessions i).phase.synced = true) : Orderly (s.leave taken) cut := by
  rw [Sys.leave]
  split_ifs with htaken
  · have hin : s.side.file.inSavepoint = false := by
      rw [Bool.and_eq_true, Bool.not_eq_true'] at htaken
      exact htaken.2
    have hrun : s.running = [] := h.accounts.idle (File.origin_of_not_inSavepoint hin)
    have hsees := h.sees i
    refine h.of_session h.accounts (fun j hj => by cases hj) (fun hin' => ?_) ?_ (fun _ _ => rfl)
      (fun j hj => ?_) (List.prefix_refl _) (Or.inl hold) ?_
    · exact absurd hin' (by rw [hin]; exact Bool.false_ne_true)
    · rcases h.even with heven | ⟨j, hj, hd⟩
      · exact Or.inl heven
      · rw [hold] at hj
        cases hj
        rw [not_doomed_of_not_holding hphase] at hd
        cases hd
    · rw [hold]
      exact ⟨fun hj' => (by cases hj'), fun hj' => absurd (Option.some.inj hj').symm hj⟩
    · exact
        { holds := fun hp => by
            rw [hphase] at hp
            cases hp
          owns := hsees.owns
          view := fun _ => Reads.all hrun
            ((Reads.holder hold).1 (hsees.view fun _ => hsync))
          staged := fun p hp => Reads.all hrun ((Reads.holder hold).1 (hsees.staged p hp)) }
  · exact h

/-- The transaction that is running is committed by the session that holds the side. -/
theorem Orderly.release (h : Orderly s cut) (hold : s.holder = some i) (ended : Bool)
    (howns : (s.sessions i).phase.owns = false) : Orderly (s.release ended) cut' := by
  have hin : (s.side.file.releaseSavepoint ended).inSavepoint = false := by
    unfold File.releaseSavepoint
    split
    · rename_i hnone
      simp [File.inSavepoint, hnone]
    · rfl
  have hreads : ∀ changes, s.Reads i changes → (s.release ended).Reads i changes := by
    intro changes hc
    rw [Reads.holder hold] at hc
    rw [Reads.holder (show (s.release ended).holder = some i from hold)]
    simpa [Sys.release] using hc
  have hsees := h.sees i
  refine h.of_session (h.accounts.release ended cut') h.writer (fun hin' => ?_) h.even
    (fun _ _ => rfl) (fun _ _ => Iff.rfl) (List.prefix_append _ _) (Or.inl hold) ?_
  · change (s.side.file.releaseSavepoint ended).inSavepoint = true at hin'
    rw [hin] at hin'
    cases hin'
  · exact
      { holds := hsees.holds
        owns := fun hp => by
          change (s.sessions i).phase.owns = true at hp
          rw [howns] at hp
          cases hp
        view := fun hs => hreads _ (hsees.view hs)
        staged := fun p hp => hreads _ (hsees.staged p hp) }

theorem Orderly.take (h : Orderly s cut) (hnone : s.holder = none)
    (hw : s.side.writer.isSome = true) (call : Call) :
    Orderly ({ s with holder := some i }.goto i (.sharing (.entered call true))) cut := by
  have hself : ({ s with holder := some i }.goto i (.sharing (.entered call true))).sessions i =
      { s.sessions i with phase := .sharing (.entered call true) } := upd_self _ _ _
  refine h.of_session h.accounts (fun _ _ => Option.isSome_iff_exists.1 hw)
    (fun _ hno => nomatch hno) ?_ (fun j hj => upd_of_ne hj) (fun j hj => ?_)
    (List.prefix_refl _) (Or.inr ⟨rfl, rfl, rfl⟩) ?_
  · rcases h.even with heven | ⟨j, hj, -⟩
    · exact Or.inl heven
    · rw [hnone] at hj
      cases hj
  · rw [hnone]
    exact ⟨fun hj' => absurd (Option.some.inj hj').symm hj, fun hj' => nomatch hj'⟩
  · exact
      { holds := fun _ => rfl
        owns := fun hp => by
          rw [hself] at hp
          cases hp
        view := fun hs => by
          have hp := hs rfl
          rw [hself] at hp
          cases hp
        staged := fun p hp => by
          rw [hself] at hp
          cases hp }

theorem Orderly.hold (h : Orderly s cut) {taken : Bool}
    (hphase : (s.sessions i).phase = .reached (.entered .statement taken))
    (hcut : cut' = false → s.side.file.inSavepoint = true → cut = false) :
    Orderly (s.hold i taken) cut' := by
  have hold := (h.sees i).holds (by rw [hphase]; rfl)
  have hnot : (s.sessions i).phase.doomed = false := by rw [hphase]; rfl
  rw [Sys.hold]
  cases hin : s.side.file.inSavepoint with
  | true =>
      rw [if_pos rfl]
      exact (h.notes hcut).moves _ rfl (fun _ => hold) (fun hp => by cases hp) (fun _ hp => by cases hp)
        (fun _ hp => by cases hp) fun hd => by
          rw [hnot] at hd
          cases hd
  | false =>
      rw [if_neg Bool.false_ne_true]
      obtain ⟨w, hw⟩ := h.writer i hold
      have hepoch : s.side.epoch = w.epoch := by rw [WriteSide.epoch, hw]
      simp only [hepoch]
      have ho := File.origin_of_not_inSavepoint hin
      generalize hu : ({ s with side := { s.side with
        file := s.side.file.beginSavepoint (s.sessions i).txn w.epoch } } : Sys).goto i _ = u
      have hself : (u.sessions i) = { s.sessions i with phase := .reached (.body
          { savepoint := !(s.sessions i).txn, entered := taken } true) } := by
        rw [← hu]
        exact upd_self _ _ _
      refine h.of_session (i := i) ?_ ?_ ?_ ?_ ?_ ?_ ?_ (Or.inl hold) ?_
      · rw [← hu]
        exact h.accounts.begin hw ho
      · rw [← hu]
        exact fun j hj => ⟨w, hw⟩
      · rw [← hu]
        intro _ hno
        rw [show s.holder = none from hno] at hold
        cases hold
      · rw [← hu]
        rcases h.even with heven | ⟨j, hj, hd⟩
        · exact Or.inl heven
        · rw [hold] at hj
          cases hj
          rw [hnot] at hd
          cases hd
      · rw [← hu]
        exact fun j hj => upd_of_ne hj
      · rw [← hu]
        exact fun _ _ => Iff.rfl
      · rw [← hu]
        exact List.prefix_refl _
      · exact
          { holds := fun _ => by
              rw [← hu]
              exact hold
            owns := fun _ => by
              rw [← hu]
              rfl
            view := fun hs => by
              have hp := hs (by rw [← hu]; exact hold)
              rw [hself] at hp
              cases hp
            staged := fun p hp => by
              rw [hself] at hp
              cases hp }

theorem hold_frame (s : Sys) (i : ℕ) (taken : Bool) :
    (s.hold i taken).side.file.inSavepoint = true ∧ Shows s (s.hold i taken) i := by
  rw [hold]
  split_ifs with hin
  · exact ⟨hin, Shows.of_same rfl rfl rfl⟩
  · exact ⟨rfl, Shows.of_same rfl rfl rfl⟩

/-! ### Capturing and installing -/

theorem Orderly.publishSide (h : Orderly s cut) {held : Held}
    (hphase : (s.sessions i).phase = .reached (.body held true)) :
    Orderly (s.goto i (.sharing (.body held true))) cut := by
  have hsees := h.sees i
  have hold := hsees.holds (by rw [hphase]; rfl)
  have hin := hsees.owns
  rw [hphase] at hin
  refine h.moves _ rfl (fun _ => hold) hin (fun _ hp => nomatch hp) (fun _ hp => nomatch hp)
    fun hd => ?_
  rw [hphase] at hd
  cases hd

theorem Orderly.marks {u : Sys} (h : Orderly s cut) (hu : step s (.marks i) = some u) :
    Orderly u cut ∧ Shows s u i := by
  have hsees := h.sees i
  simp only [step] at hu
  split at hu <;> cases hu
  · rename_i p hphase
    have hold := hsees.holds (by rw [hphase]; rfl)
    refine ⟨?_, Shows.of_same rfl rfl rfl⟩
    have hin := hsees.owns
    have hstaged := hsees.staged
    rw [Session.staged, hphase] at hstaged
    rw [hphase] at hin
    split_ifs
    · refine h.moves _ rfl (fun _ => hold) hin (fun _ hp => nomatch hp) hstaged fun hd => ?_
      rw [hphase] at hd
      cases hd
    · refine h.moves _ rfl (fun _ => hold) hin (fun _ hp => nomatch hp) hstaged fun hd => ?_
      rw [hphase] at hd
      cases hd
  · rename_i p captured hphase
    have hold := hsees.holds (by rw [hphase]; rfl)
    have hin := hsees.owns
    have hstaged := hsees.staged
    rw [Session.staged, hphase] at hstaged
    rw [hphase] at hin
    refine ⟨h.moves _ rfl (fun _ => hold) hin (fun _ hp => nomatch hp) hstaged fun hd => ?_,
      Shows.of_same rfl rfl rfl⟩
    rw [hphase] at hd
    exact hd

theorem Orderly.capture {u : Sys} (h : Orderly s cut) (hu : step s (.capture i) = some u) :
    Orderly u cut ∧ Shows s u i := by
  have hsees := h.sees i
  simp only [step] at hu
  split at hu <;> cases hu
  rename_i p hphase
  have hold := hsees.holds (by rw [hphase]; rfl)
  have hin := hsees.owns
  rw [hphase] at hin
  have hstage : Orderly s.stage.2 cut := h.congr rfl rfl rfl rfl rfl rfl
  refine ⟨hstage.moves _ rfl (fun _ => hold) hin (fun _ hp => nomatch hp) (fun q hq => ?_)
    fun hd => ?_, Shows.of_same rfl rfl rfl⟩
  · cases p <;> cases hq
    refine (Reads.holder hold).2 (h.side hold ?_)
    rw [hphase]
    rfl
  · change (s.sessions i).phase.doomed = true at hd
    rw [hphase] at hd
    exact hd

theorem Orderly.install {u : Sys} (h : Orderly s cut) (hu : step s (.install i) = some u) :
    Orderly u cut ∧ Shows s u i := by
  have hsees := h.sees i
  simp only [step] at hu
  split at hu <;> cases hu
  rename_i p hphase
  have hold := hsees.holds (by rw [hphase]; rfl)
  have hin := hsees.owns
  have hstaged := hsees.staged
  rw [Session.staged, hphase] at hstaged
  rw [hphase] at hin
  have hpublish : Orderly s.publish cut := h.congr rfl rfl rfl rfl rfl rfl
  refine ⟨hpublish.moves _ rfl (fun _ => hold) hin (fun _ hp => nomatch hp) hstaged fun hd => ?_,
    .installed (Nat.succ_ne_self _) rfl rfl ((Reads.holder hold).2 (h.side hold ?_))⟩
  · change (s.sessions i).phase.doomed = true at hd
    rw [hphase] at hd
    cases hd
  · rw [hphase]
    rfl

theorem Orderly.follows {u : Sys} (h : Orderly s cut) (hu : step s (.follow i true) = some u) :
    Orderly u cut ∧ Shows s u i := by
  have hsees := h.sees i
  simp only [step] at hu
  split at hu <;> cases hu
  rename_i p hphase
  have hold := hsees.holds (by rw [hphase]; rfl)
  have hnext : p.next true ≠ .idle := by cases p <;> simp [Point.next]
  rw [if_neg hnext]
  refine ⟨h.followed hold (fun hp => ?_) (fun hp => ?_) (fun q hq => ?_) fun hd => ?_, ?_⟩
  · rw [hphase]
    cases p <;> exact hp
  · rw [hphase]
    cases p <;> first | rfl | cases hp
  · rw [Session.staged, hphase]
    cases p <;> exact hq
  · rw [hphase] at hd
    cases p <;> first | cases hd | skip
    rename_i held ok
    cases ok
    · exact hd
    · cases hd
  · rw [follow_holder hold]
    exact Shows.of_same rfl rfl rfl

/-- A session that has followed all it wrote gives the side back and goes on. -/
theorem Orderly.leavesTo (h : Orderly s cut) (hold : s.holder = some i) (taken : Bool)
    (f : Session → Session) (hview : (f (s.sessions i)).view = (s.sessions i).view)
    (hphase : (f (s.sessions i)).phase.holding = false)
    (hsync : (f (s.sessions i)).phase.synced = true)
    (hfrom : (s.sessions i).phase.synced = true)
    (hstaged : ∀ p, (f (s.sessions i)).staged = some p → (s.sessions i).staged = some p)
    (howns : (f (s.sessions i)).phase.owns = false)
    (hnot : (s.sessions i).phase.doomed = false) :
    Orderly ((s.leave taken).on i f) cut ∧ Shows s ((s.leave taken).on i f) i := by
  have hmoved : Orderly (s.on i f) cut := by
    refine h.moves f hview (fun hp => ?_) (fun hp => ?_) (fun _ _ => hfrom)
      (fun p hp => (h.sees i).staged p (hstaged p hp)) fun hd => ?_
    · rw [hphase] at hp
      cases hp
    · rw [howns] at hp
      cases hp
    · rw [hnot] at hd
      cases hd
  have hself : (s.on i f).sessions i = f (s.sessions i) := upd_self _ _ _
  obtain ⟨hdone, hrunning, hpublished⟩ := leave_txn (s.on i f) taken
  rw [on_leave]
  refine ⟨hmoved.leave hold taken (by rw [hself]; exact hphase) (by rw [hself]; exact hsync), ?_⟩
  exact Shows.of_same hpublished hdone hrunning

theorem Orderly.leaves {u : Sys} (h : Orderly s cut) (hu : step s (.leave i) = some u) :
    Orderly u cut ∧ Shows s u i := by
  simp only [step] at hu
  split at hu <;> cases hu
  · rename_i call taken ok hphase
    have hold := (h.sees i).holds (by rw [hphase]; rfl)
    have hnot : (s.sessions i).phase.doomed = false := by rw [hphase]; rfl
    have hsync : (s.sessions i).phase.synced = true := by rw [hphase]; rfl
    rw [afterLeave]
    split_ifs
    · exact h.leavesTo hold taken _ rfl rfl rfl hsync (fun _ hp => by cases hp) rfl hnot
    · refine h.leavesTo hold taken _ rfl rfl rfl hsync (fun p hp => ?_) rfl hnot
      rw [Session.staged, hphase]
      exact hp
  · rename_i hphase
    have hold := (h.sees i).holds (by rw [hphase]; rfl)
    exact h.leavesTo hold true _ rfl rfl rfl (by rw [hphase]; rfl) (fun _ hp => by cases hp) rfl
      (by rw [hphase]; rfl)

/-- What is installed at the end of a call is what its session should be reading. -/
theorem Orderly.installs {pending : Option (Published × Bool)} (h : Orderly s cut)
    (waited ok : Bool) (f : Session → Session)
    (hpending : ∀ p, pending.map Prod.fst = some p → s.Reads i p.changes)
    (hsync : (s.sessions i).phase.synced = true) (hnot : (s.sessions i).phase.doomed = false)
    (hview : (f (s.sessions i)).view = (s.sessions i).view) :
    Orderly (((s.on i f).installPending pending waited).answer i ok) cut ∧
      Shows s (((s.on i f).installPending pending waited).answer i ok) i := by
  have hmoved : Orderly ((s.on i f).answer i ok) cut := by
    rw [Sys.answer, on_on]
    exact h.moves _ hview (fun hp => nomatch hp) (fun hp => nomatch hp) (fun _ _ => hsync)
      (fun _ hp => nomatch hp) fun hd => by
        rw [hnot] at hd
        cases hd
  unfold installPending
  split
  · rename_i next settled
    have hnext := hpending next rfl
    split_ifs
    · rw [publishStaged]
      split_ifs with hstale
      · exact ⟨hmoved, Shows.of_same rfl rfl rfl⟩
      · refine ⟨hmoved.congr rfl rfl rfl rfl rfl rfl, .installed ?_ rfl rfl hnext⟩
        exact Nat.succ_ne_self _
    · exact ⟨hmoved, Shows.of_same rfl rfl rfl⟩
  · exact ⟨hmoved, Shows.of_same rfl rfl rfl⟩

theorem Orderly.durable {u : Sys} {ok : Bool} (h : Orderly s cut)
    (hphase : (s.sessions i).phase = .ending ok) (hu : s.durable i ok = some u) :
    Orderly u cut ∧ Shows s u i := by
  have hsync : (s.sessions i).phase.synced = true := by rw [hphase]; rfl
  have hnot : (s.sessions i).phase.doomed = false := by rw [hphase]; rfl
  have hstaged := (h.sees i).staged
  rw [Session.staged, hphase] at hstaged
  rw [Sys.durable] at hu
  split at hu
  · rename_i g c howed
    obtain ⟨log, -, rfl⟩ := Option.map_eq_some_iff.1 hu
    have hmoved : Orderly ((s.on i fun se => { se with pending := none, owed := none }).goto i
        (.waiting ok (s.sessions i).pending g c)) cut := by
      rw [goto, on_on]
      exact h.moves _ rfl (fun hp => by cases hp) (fun hp => by cases hp) (fun _ _ => hsync)
        hstaged fun hd => by
          rw [hnot] at hd
          cases hd
    exact ⟨hmoved.congr rfl rfl rfl rfl rfl rfl, Shows.of_same rfl rfl rfl⟩
  · cases hu
    exact h.installs false ok _ hstaged hsync hnot rfl

theorem Orderly.landed {u : Sys} {ok : Bool} {pending : Option (Published × Bool)} {g c : ℕ}
    (h : Orderly s cut) (hphase : (s.sessions i).phase = .waiting ok pending g c)
    (hu : s.landed i ok pending g c = some u) : Orderly u cut ∧ Shows s u i := by
  have hsync : (s.sessions i).phase.synced = true := by rw [hphase]; rfl
  have hnot : (s.sessions i).phase.doomed = false := by rw [hphase]; rfl
  have hstaged := (h.sees i).staged
  rw [Session.staged, hphase] at hstaged
  have hsame : s.on i id = s := by
    rw [on]
    exact congrArg (fun sessions => { s with sessions }) (Wal.upd_eq_self _ _)
  rw [Sys.landed] at hu
  split at hu <;> cases hu
  · have hinstalls := h.installs true ok id hstaged hsync hnot rfl
    rwa [hsame] at hinstalls
  · exact ⟨h.answer false (fun _ => hsync) hnot, Shows.of_same rfl rfl rfl⟩

theorem shows_follow (s : Sys) (i : ℕ) (ok : Bool) : Shows s (s.follow i ok) i := by
  rcases follow_eq s i ok with hs | ⟨header, patches, seen, hs⟩ <;> rw [hs] <;>
    exact Shows.of_same rfl rfl rfl

end Sys

end Zu.Shared
