import Zu.Shared.Committed

/-!
# What a session reads

A session that holds the write side reads the committed transactions and its own
changes, and every other session some prefix of the committed transactions. `Orderly`
says so of every session, of the states they have staged, and of the side.
-/

namespace Zu.Shared

open Wal (upd upd_self upd_of_ne)

/-- Whether a session in this phase has followed all that it wrote. -/
def Phase.synced : Phase → Bool
  | .idle | .ending _ | .waiting _ _ _ _ => true
  | .reached (.entered _ _) | .reached (.leaving _ _ _) | .reached .ended => true
  | _ => false

/-- Whether a statement that has got here owns a savepoint. -/
def Point.owns : Point → Bool
  | .body held _ => held.savepoint
  | _ => false

/-- Whether a statement that has got here can only be undone. -/
def Point.doomed : Point → Bool
  | .body held false => held.savepoint
  | _ => false

/-- Whether what is captured here is what will be installed. -/
def Point.last : Point → Bool
  | .leaving _ _ _ => true
  | _ => false

def Phase.owns : Phase → Bool
  | .sharing p | .publishing p | .staging p | .flagging p _ | .following p | .reached p => p.owns
  | _ => false

/-- A point is doomed from where its write has failed. -/
def Phase.doomed : Phase → Bool
  | .staging p | .flagging p _ | .following p | .reached p => p.doomed
  | _ => false

/-- The state a session in this phase is about to install. -/
def Session.staged (se : Session) : Option Published :=
  match se.phase with
  | .flagging p captured => if p.last then some captured else none
  | .sharing p | .publishing p | .following p | .reached p =>
      if p.last then se.pending.map Prod.fst else none
  | .ending _ => se.pending.map Prod.fst
  | .waiting _ pending _ _ => pending.map Prod.fst
  | _ => none

namespace Sys

/-- These changes are what session `i` should be reading. -/
def Reads (s : Sys) (i : ℕ) (changes : List ℕ) : Prop :=
  if s.holder = some i then changes.Perm (s.done.flatten ++ s.running)
  else ∃ k, changes.Perm (s.done.take k).flatten

theorem prefix_mono {done done' : List (List ℕ)} (h : done <+: done') {changes : List ℕ}
    (hc : ∃ k, changes.Perm (done.take k).flatten) :
    ∃ k, changes.Perm (done'.take k).flatten := by
  obtain ⟨k, hk⟩ := hc
  obtain ⟨rest, rfl⟩ := h
  refine ⟨min k done.length, ?_⟩
  rw [List.take_append_of_le_length (Nat.min_le_right _ _), ← List.take_take,
    List.take_length]
  exact hk

theorem Reads.all {s : Sys} {i : ℕ} {changes : List ℕ} (hrun : s.running = [])
    (h : changes.Perm (s.done.flatten ++ s.running)) : s.Reads i changes := by
  rw [Reads]
  split_ifs
  · exact h
  · refine ⟨s.done.length, ?_⟩
    rwa [List.take_length, ← List.append_nil s.done.flatten, ← hrun]

theorem Reads.holder {s : Sys} {i : ℕ} {changes : List ℕ} (hold : s.holder = some i) :
    s.Reads i changes ↔ changes.Perm (s.done.flatten ++ s.running) := by
  rw [Reads, if_pos hold]

theorem Reads.other {s : Sys} {i : ℕ} {changes : List ℕ} (hold : s.holder ≠ some i) :
    s.Reads i changes ↔ ∃ k, changes.Perm (s.done.take k).flatten := by
  rw [Reads, if_neg hold]

/-- What session `i` reads, and what it is about to install. -/
structure Sees (s : Sys) (i : ℕ) : Prop where
  holds : (s.sessions i).phase.holding = true → s.holder = some i
  owns : (s.sessions i).phase.owns = true → s.side.file.inSavepoint = true
  view : (s.holder = some i → (s.sessions i).phase.synced = true) →
    s.Reads i (s.sessions i).view
  staged : ∀ p, (s.sessions i).staged = some p → s.Reads i p.changes

/-- The readers' patches are what the writer has not folded, unless the statement that
holds the side can only be undone. -/
def Even (s : Sys) : Prop :=
  (∀ w, s.side.writer = some w → w.patches = w.overlay) ∨
    ∃ i, s.holder = some i ∧ (s.sessions i).phase.doomed = true

structure Orderly (s : Sys) (cut : Bool) : Prop where
  accounts : Accounts s.side s.done s.running s.next cut
  writer : ∀ i, s.holder = some i → ∃ w, s.side.writer = some w
  held : s.side.file.inSavepoint = true → s.holder ≠ none
  even : s.Even
  sees : ∀ i, s.Sees i

/-- A session that did not move sees what it saw: only the one that holds the side
sees what the side does. -/
theorem Sees.frame {s u : Sys} {j : ℕ} (h : s.Sees j) (hsess : u.sessions j = s.sessions j)
    (hholder : u.holder = some j ↔ s.holder = some j) (hdone : s.done <+: u.done)
    (hside : s.holder = some j → u.done = s.done ∧ u.running = s.running ∧
      u.side.file.inSavepoint = s.side.file.inSavepoint) : u.Sees j := by
  have hreads : ∀ changes, s.Reads j changes → u.Reads j changes := by
    intro changes hc
    by_cases hold : s.holder = some j
    · obtain ⟨hd, hr, -⟩ := hside hold
      rw [Reads.holder (hholder.2 hold), hd, hr]
      exact (Reads.holder hold).1 hc
    · rw [Reads.other (fun hu => hold (hholder.1 hu))]
      exact prefix_mono hdone ((Reads.other hold).1 hc)
  exact
    { holds := fun hp => hholder.2 (h.holds (hsess ▸ hp))
      owns := fun hp => by
        rw [hsess] at hp
        have hin := h.owns hp
        have hold : s.holder = some j := h.holds (by
          cases hph : (s.sessions j).phase <;> rw [hph] at hp <;> first | rfl | cases hp)
        rw [(hside hold).2.2]
        exact hin
      view := fun hsync => by
        rw [hsess]
        exact hreads _ (h.view fun hold => by rw [← hsess]; exact hsync (hholder.2 hold))
      staged := fun p hp => hreads _ (h.staged p (hsess ▸ hp)) }

theorem Orderly.of_session {s u : Sys} {i : ℕ} {cut cut' : Bool} (h : Orderly s cut)
    (haccounts : Accounts u.side u.done u.running u.next cut')
    (hwriter : ∀ j, u.holder = some j → ∃ w, u.side.writer = some w)
    (hheld : u.side.file.inSavepoint = true → u.holder ≠ none) (heven : u.Even)
    (hsess : ∀ j, j ≠ i → u.sessions j = s.sessions j)
    (hholder : ∀ j, j ≠ i → (u.holder = some j ↔ s.holder = some j))
    (hdone : s.done <+: u.done)
    (hside : s.holder = some i ∨ (u.done = s.done ∧ u.running = s.running ∧
      u.side.file.inSavepoint = s.side.file.inSavepoint))
    (hi : u.Sees i) : Orderly u cut' where
  accounts := haccounts
  writer := hwriter
  held := hheld
  even := heven
  sees j := by
    by_cases hj : j = i
    · rw [hj]
      exact hi
    · refine (h.sees j).frame (hsess j hj) (hholder j hj) hdone fun hold => ?_
      rcases hside with hi' | hside
      · rw [hi'] at hold
        exact absurd (Option.some.inj hold).symm hj
      · exact hside

/-- What the side shows while the statement that holds it is not to be undone. -/
theorem Orderly.side {s : Sys} {i : ℕ} {cut : Bool} (h : Orderly s cut)
    (hold : s.holder = some i) (hphase : (s.sessions i).phase.doomed = false) :
    s.side.changes.Perm (s.done.flatten ++ s.running) := by
  obtain ⟨w, hw⟩ := h.writer i hold
  refine h.accounts.changes hw ?_
  rcases h.even with heven | ⟨j, hj, hdoomed⟩
  · exact heven w hw
  · rw [hold] at hj
    cases hj
    rw [hphase] at hdoomed
    cases hdoomed

/-- What was cut from the log below an open savepoint is noted. -/
def Notes (s u : Sys) (cut cut' : Bool) : Prop :=
  cut' = false → s.side.file.inSavepoint = true → u.side.file.inSavepoint = true →
    cut = false ∧ u.side.below = s.side.below

/-- What a section does to what is published: it leaves it, and the transaction that
is running goes on, begins or ends; or it installs what its session should be reading. -/
inductive Shows (s u : Sys) (i : ℕ) : Prop
  | on (published : u.published = s.published) (done : u.done = s.done)
      (running : s.running <+: u.running)
  | alone (published : u.published = s.published) (done : s.done <+: u.done)
      (running : s.running = [])
  | committed (published : u.published = s.published) (done : u.done = s.done ++ [s.running])
      (running : u.running = [])
  | undone (published : u.published = s.published) (done : u.done = s.done)
      (running : u.running = [])
  | installed (version : u.published.version ≠ s.published.version) (done : u.done = s.done)
      (running : u.running = s.running) (changes : s.Reads i u.published.changes)

theorem Shows.of_same {s u : Sys} {i : ℕ} (hpublished : u.published = s.published)
    (hdone : u.done = s.done) (hrunning : u.running = s.running) : Shows s u i :=
  .on hpublished hdone (hrunning ▸ List.prefix_refl _)

theorem Shows.of_on {s u : Sys} {i : ℕ} {f : Session → Session} (h : Shows (s.on i f) u i) :
    Shows s u i := by
  cases h with
  | on hpublished hdone hrunning => exact .on hpublished hdone hrunning
  | alone hpublished hdone hrunning => exact .alone hpublished hdone hrunning
  | committed hpublished hdone hrunning => exact .committed hpublished hdone hrunning
  | undone hpublished hdone hrunning => exact .undone hpublished hdone hrunning
  | installed hversion hdone hrunning hchanges =>
      exact .installed hversion hdone hrunning hchanges

theorem Shows.on_session {s u : Sys} {i : ℕ} {f : Session → Session} (h : Shows s u i) :
    Shows s (u.on i f) i := by
  cases h with
  | on hpublished hdone hrunning => exact .on hpublished hdone hrunning
  | alone hpublished hdone hrunning => exact .alone hpublished hdone hrunning
  | committed hpublished hdone hrunning => exact .committed hpublished hdone hrunning
  | undone hpublished hdone hrunning => exact .undone hpublished hdone hrunning
  | installed hversion hdone hrunning hchanges =>
      exact .installed hversion hdone hrunning hchanges

theorem Orderly.self {s : Sys} {i : ℕ} {cut : Bool} (h : Orderly s cut)
    (f : Session → Session)
    (hdoomed : (s.sessions i).phase.doomed = true → (f (s.sessions i)).phase.doomed = true)
    (hi : (s.on i f).Sees i) : Orderly (s.on i f) cut := by
  refine h.of_session h.accounts h.writer h.held ?_ (fun j hj => upd_of_ne hj)
    (fun _ _ => Iff.rfl) (List.prefix_refl _) (Or.inr ⟨rfl, rfl, rfl⟩) hi
  · rcases h.even with heven | ⟨j, hj, hd⟩
    · exact Or.inl heven
    · refine Or.inr ⟨j, hj, ?_⟩
      by_cases hji : j = i
      · subst hji
        change (upd s.sessions j (f (s.sessions j)) j).phase.doomed = true
        rw [upd_self]
        exact hdoomed hd
      · change (upd s.sessions i (f (s.sessions i)) j).phase.doomed = true
        rw [upd_of_ne hji]
        exact hd

end Sys

end Zu.Shared
