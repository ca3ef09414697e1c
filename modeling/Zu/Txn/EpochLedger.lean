import Zu.Lib.Run

/-!
# The epoch ledger

Readers pin the committed epoch in a slot each and the writer works out how far a
fold may go. `step` takes one atomic access of the ledger: a reader loads the epoch,
stores it in its slot and reads the epoch again, and the writer loads the slots one
after the other, each access in one order with all the others. The fences order
nothing more and are left out. `advance` and `horizon` are the one writer's, so an
epoch is never published inside a `horizon`; a reader keeps its slot for its lifetime.
-/

namespace Zu.Txn

open Lib

/-- `EMPTY`: the slot of no pin. -/
def emptySlot : UInt64 := UInt64.ofNat (2 ^ 64 - 1)

/-- `EpochLedger`, with `n` slots; `READER_SLOTS` is 8. -/
structure EpochLedger (n : ℕ) where
  committed : UInt64
  slots : Fin n → UInt64

def EpochLedger.new (n : ℕ) (epoch : UInt64) : EpochLedger n where
  committed := epoch
  slots := fun _ => emptySlot

/-- Where a reader is in `pin`. -/
inductive Reader
  | idle
  /-- At the top of the loop. -/
  | loading
  /-- It has loaded an epoch and not stored it. -/
  | loaded (epoch : UInt64)
  /-- It has stored the epoch and not read the committed one again. -/
  | stored (epoch : UInt64)
  /-- `pin` has returned. -/
  | held (epoch : UInt64)
  deriving DecidableEq, Repr

/-- Where the writer is in `horizon`: the slot it loads next and the oldest epoch it
has come upon. -/
inductive Scan
  | idle
  | scanning (slot : ℕ) (horizon : UInt64)
  deriving DecidableEq, Repr

/-- The ledger with the readers and the writer on it. -/
structure Pins (n : ℕ) where
  ledger : EpochLedger n
  readers : Fin n → Reader
  writer : Scan
  /-- The horizons the writer has worked out, newest first. -/
  horizons : List UInt64

def Pins.new (n : ℕ) (epoch : UInt64) : Pins n where
  ledger := EpochLedger.new n epoch
  readers := fun _ => .idle
  writer := .idle
  horizons := []

/-- One atomic access, or the call that leads to one. -/
inductive PinAction (n : ℕ)
  /-- A reader calls `pin`, letting go of what it held. -/
  | pin (slot : Fin n)
  /-- The next access of a reader in `pin`. -/
  | read (slot : Fin n)
  | unpin (slot : Fin n)
  | advance (epoch : UInt64)
  /-- The writer calls `horizon`, which loads the committed epoch. -/
  | horizon
  /-- The next access of `horizon`, or its return. -/
  | scan

namespace Pins

variable {n : ℕ}

def setReader (s : Pins n) (slot : Fin n) (r : Reader) : Pins n :=
  { s with readers := Function.update s.readers slot r }

def store (s : Pins n) (slot : Fin n) (epoch : UInt64) : Pins n :=
  { s with ledger := { s.ledger with slots := Function.update s.ledger.slots slot epoch } }

/-- The body of the loop of `pin`, an access at a time. -/
def pinStep (s : Pins n) (slot : Fin n) : Option (Pins n) :=
  match s.readers slot with
  | .loading => some (s.setReader slot (.loaded s.ledger.committed))
  | .loaded epoch => some ((s.store slot epoch).setReader slot (.stored epoch))
  | .stored epoch =>
      some (s.setReader slot (if s.ledger.committed = epoch then .held epoch else .loading))
  | _ => none

/-- `horizon.min(pinned)`, of a slot that holds a pin. -/
def lower (horizon pinned : UInt64) : UInt64 :=
  if pinned ≠ emptySlot ∧ pinned < horizon then pinned else horizon

/-- The loop of `horizon`, an access at a time. -/
def scanStep (s : Pins n) : Option (Pins n) :=
  match s.writer with
  | .scanning slot horizon =>
      if h : slot < n then
        some { s with writer := .scanning (slot + 1) (lower horizon (s.ledger.slots ⟨slot, h⟩)) }
      else some { s with writer := .idle, horizons := horizon :: s.horizons }
  | .idle => none

def step (s : Pins n) : PinAction n → Option (Pins n)
  | .pin slot =>
      match s.readers slot with
      | .idle | .held _ => some (s.setReader slot .loading)
      | _ => none
  | .read slot => s.pinStep slot
  | .unpin slot =>
      match s.readers slot with
      | .idle | .held _ => some ((s.store slot emptySlot).setReader slot .idle)
      | _ => none
  | .advance epoch =>
      if s.writer = .idle ∧ s.ledger.committed ≤ epoch then
        some { s with ledger := { s.ledger with committed := epoch } }
      else none
  | .horizon =>
      if s.writer = .idle then some { s with writer := .scanning 0 s.ledger.committed } else none
  | .scan => s.scanStep

/-- The states a ledger reaches from a new one. -/
def Reached (epoch : UInt64) (s : Pins n) : Prop := Run step anyAction (Pins.new n epoch) s

@[simp] theorem readers_setReader_self (s : Pins n) (slot : Fin n) (r : Reader) :
    (s.setReader slot r).readers slot = r :=
  Function.update_self _ _ _

theorem readers_setReader_of_ne (s : Pins n) {slot i : Fin n} (h : i ≠ slot) (r : Reader) :
    (s.setReader slot r).readers i = s.readers i :=
  Function.update_of_ne h _ _

@[simp] theorem slots_store_self (s : Pins n) (slot : Fin n) (epoch : UInt64) :
    (s.store slot epoch).ledger.slots slot = epoch :=
  Function.update_self _ _ _

theorem store_slots (s : Pins n) (slot : Fin n) : s.store slot (s.ledger.slots slot) = s := by
  rw [store, Function.update_eq_self]

theorem slots_store_of_ne (s : Pins n) {slot i : Fin n} (h : i ≠ slot) (epoch : UInt64) :
    (s.store slot epoch).ledger.slots i = s.ledger.slots i :=
  Function.update_of_ne h _ _

theorem lower_le_left (horizon pinned : UInt64) : lower horizon pinned ≤ horizon := by
  rw [lower]
  split
  · rename_i h
    exact UInt64.le_of_lt h.2
  · exact UInt64.le_refl _

theorem lower_le_right (horizon pinned : UInt64) : lower horizon pinned ≤ pinned := by
  rw [lower]
  split
  · exact UInt64.le_refl _
  · rename_i h
    by_cases hempty : pinned = emptySlot
    · rw [hempty, UInt64.le_iff_toNat_le]
      have hlt := horizon.toNat_lt
      have hmax : emptySlot.toNat = 2 ^ 64 - 1 := rfl
      omega
    · exact UInt64.not_lt.1 fun hlt => h ⟨hempty, hlt⟩

/-- Whoever is past the store of `pin` has its epoch in its slot, and nothing the
writer has worked out is past the committed epoch or a pin. A `horizon` under way
may be past a pin only where it has not loaded its slot. -/
structure Safe (s : Pins n) : Prop where
  empty : ∀ i, s.readers i = .idle → s.ledger.slots i = emptySlot
  stored : ∀ i e, s.readers i = .stored e → s.ledger.slots i = e
  pinned : ∀ i e, s.readers i = .held e → s.ledger.slots i = e
  current : ∀ h ∈ s.horizons, h ≤ s.ledger.committed
  below : ∀ h ∈ s.horizons, ∀ i e, s.readers i = .held e → h ≤ e
  scanned : ∀ k h, s.writer = .scanning k h → h ≤ s.ledger.committed ∧
    ∀ i e, s.readers i = .held e → i.val < k → h ≤ e

theorem safe_new (epoch : UInt64) : (Pins.new n epoch).Safe where
  empty _ _ := rfl
  stored _ _ h := nomatch h
  pinned _ _ h := nomatch h
  current _ h := nomatch h
  below _ h := nomatch h
  scanned _ _ h := nomatch h

theorem Safe.place {s : Pins n} (hs : s.Safe) (slot : Fin n) {epoch : UInt64} {r : Reader}
    (hempty : r = .idle → epoch = emptySlot) (hstored : ∀ e, r = .stored e → epoch = e)
    (hheld : ∀ e, r = .held e → epoch = e ∧ s.ledger.committed = e) :
    ((s.store slot epoch).setReader slot r).Safe := by
  have hother : ∀ i, i ≠ slot →
      ((s.store slot epoch).setReader slot r).readers i = s.readers i ∧
        ((s.store slot epoch).setReader slot r).ledger.slots i = s.ledger.slots i :=
    fun i h => ⟨readers_setReader_of_ne _ h r, slots_store_of_ne s h epoch⟩
  have hself : ((s.store slot epoch).setReader slot r).readers slot = r ∧
      ((s.store slot epoch).setReader slot r).ledger.slots slot = epoch :=
    ⟨readers_setReader_self _ slot r, slots_store_self s slot epoch⟩
  have hreader : ∀ i e, ((s.store slot epoch).setReader slot r).readers i = .held e →
      s.readers i = .held e ∨ s.ledger.committed = e := by
    intro i e hi
    by_cases h : i = slot
    · subst h
      rw [hself.1] at hi
      exact Or.inr (hheld e hi).2
    · rw [(hother i h).1] at hi
      exact Or.inl hi
  constructor
  · intro i hi
    by_cases h : i = slot
    · subst h
      rw [hself.1] at hi
      exact hself.2.trans (hempty hi)
    · rw [(hother i h).1] at hi
      exact (hother i h).2.trans (hs.empty i hi)
  · intro i e hi
    by_cases h : i = slot
    · subst h
      rw [hself.1] at hi
      exact hself.2.trans (hstored e hi)
    · rw [(hother i h).1] at hi
      exact (hother i h).2.trans (hs.stored i e hi)
  · intro i e hi
    by_cases h : i = slot
    · subst h
      rw [hself.1] at hi
      exact hself.2.trans (hheld e hi).1
    · rw [(hother i h).1] at hi
      exact (hother i h).2.trans (hs.pinned i e hi)
  · exact hs.current
  · intro g hg i e hi
    rcases hreader i e hi with hold | hnew
    · exact hs.below g hg i e hold
    · exact hnew ▸ hs.current g hg
  · intro k g hk
    obtain ⟨hle, hbelow⟩ := hs.scanned k g hk
    constructor
    · exact hle
    · intro i e hi hik
      rcases hreader i e hi with hold | hnew
      · exact hbelow i e hold hik
      · exact hnew ▸ hle

theorem Safe.setReader {s : Pins n} (hs : s.Safe) (slot : Fin n) {r : Reader}
    (hidle : r ≠ .idle) (hstored : ∀ e, r ≠ .stored e)
    (hheld : ∀ e, r = .held e → s.ledger.slots slot = e ∧ s.ledger.committed = e) :
    (s.setReader slot r).Safe := by
  have h := hs.place slot (fun h => absurd h hidle) (fun e h => absurd h (hstored e)) hheld
  rwa [store_slots] at h

theorem Safe.pinStep {s t : Pins n} (hs : s.Safe) {slot : Fin n}
    (h : s.pinStep slot = some t) : t.Safe := by
  rw [Pins.pinStep] at h
  split at h
  · cases h
    exact hs.setReader slot Reader.noConfusion (fun _ => Reader.noConfusion)
      fun _ => Reader.noConfusion
  · rename_i epoch hslot
    cases h
    apply hs.place slot
    · exact Reader.noConfusion
    · intro e he
      cases he
      rfl
    · exact fun _ => Reader.noConfusion
  · rename_i epoch hslot
    cases h
    apply hs.setReader slot
    · split <;> exact Reader.noConfusion
    · intro e
      split <;> exact Reader.noConfusion
    · intro e he
      split at he
      · rename_i hcommitted
        cases he
        exact ⟨hs.stored slot epoch hslot, hcommitted⟩
      · cases he
  · cases h

theorem Safe.scanStep {s t : Pins n} (hs : s.Safe) (h : s.scanStep = some t) : t.Safe := by
  rw [Pins.scanStep] at h
  split at h
  · rename_i slot horizon hwriter
    obtain ⟨hle, hbelow⟩ := hs.scanned slot horizon hwriter
    split at h
    · rename_i hslot
      cases h
      refine ⟨hs.empty, hs.stored, hs.pinned, hs.current, hs.below, ?_⟩
      intro k g hk
      cases hk
      constructor
      · exact UInt64.le_trans (lower_le_left _ _) hle
      · intro i e hi hik
        rcases Nat.lt_succ_iff_lt_or_eq.1 hik with hlt | heq
        · exact UInt64.le_trans (lower_le_left _ _) (hbelow i e hi hlt)
        · have hi' : (⟨slot, hslot⟩ : Fin n) = i := Fin.ext heq.symm
          rw [hi', hs.pinned i e hi]
          exact lower_le_right _ _
    · rename_i hslot
      cases h
      refine ⟨hs.empty, hs.stored, hs.pinned, ?_, ?_, fun _ _ hk => nomatch hk⟩
      · intro g hg
        rcases List.mem_cons.1 hg with rfl | hg
        · exact hle
        · exact hs.current g hg
      · intro g hg i e hi
        rcases List.mem_cons.1 hg with rfl | hg
        · exact hbelow i e hi (Nat.lt_of_lt_of_le i.isLt (Nat.le_of_not_lt hslot))
        · exact hs.below g hg i e hi
  · cases h

theorem safe_step {s t : Pins n} {a : PinAction n} (hs : s.Safe) (h : step s a = some t) :
    t.Safe := by
  cases a with
  | pin slot =>
      have hloading : (s.setReader slot .loading).Safe :=
        hs.setReader slot Reader.noConfusion (fun _ => Reader.noConfusion)
          fun _ => Reader.noConfusion
      rw [step] at h
      split at h <;> cases h <;> exact hloading
  | read slot => exact hs.pinStep h
  | unpin slot =>
      have hidle : ((s.store slot emptySlot).setReader slot .idle).Safe :=
        hs.place slot (fun _ => rfl) (fun _ => Reader.noConfusion) fun _ => Reader.noConfusion
      rw [step] at h
      split at h <;> cases h <;> exact hidle
  | advance epoch =>
      rw [step] at h
      split at h
      · rename_i hadvance
        cases h
        refine ⟨hs.empty, hs.stored, hs.pinned, ?_, hs.below, ?_⟩
        · intro g hg
          exact UInt64.le_trans (hs.current g hg) hadvance.2
        · intro k g hk
          rw [hadvance.1] at hk
          cases hk
      · cases h
  | horizon =>
      rw [step] at h
      split at h
      · cases h
        refine ⟨hs.empty, hs.stored, hs.pinned, hs.current, hs.below, ?_⟩
        intro k g hk
        cases hk
        exact ⟨UInt64.le_refl _, fun i _ _ hi => absurd hi (Nat.not_lt_zero i.val)⟩
      · cases h
  | scan => exact hs.scanStep h

theorem safe_of_reached {epoch : UInt64} {s : Pins n} (h : Reached epoch s) : s.Safe :=
  h.invariant (fun _ _ _ hs _ ht => safe_step hs ht) (safe_new epoch)

/-- A slot is empty or holds the committed epoch, and whoever has loaded an epoch
to store has loaded that one. -/
structure Level (epoch : UInt64) (s : Pins n) : Prop where
  committed : s.ledger.committed = epoch
  slots : ∀ i, s.ledger.slots i = emptySlot ∨ s.ledger.slots i = epoch
  loaded : ∀ i e, s.readers i = .loaded e → e = epoch

theorem Level.setReader {committed : UInt64} {s : Pins n} (hs : s.Level committed)
    (slot : Fin n) {r : Reader} (hr : ∀ e, r = .loaded e → e = committed) :
    (s.setReader slot r).Level committed := by
  refine ⟨hs.committed, hs.slots, ?_⟩
  intro i e hi
  by_cases h : i = slot
  · subst h
    rw [readers_setReader_self] at hi
    exact hr e hi
  · rw [readers_setReader_of_ne s h] at hi
    exact hs.loaded i e hi

theorem Level.store {committed : UInt64} {s : Pins n} (hs : s.Level committed)
    (slot : Fin n) {epoch : UInt64} (he : epoch = emptySlot ∨ epoch = committed) :
    (s.store slot epoch).Level committed := by
  refine ⟨hs.committed, ?_, hs.loaded⟩
  intro i
  by_cases h : i = slot
  · subst h
    rw [slots_store_self]
    exact he
  · rw [slots_store_of_ne s h]
    exact hs.slots i

/-- The horizon a `horizon` has come to, or has just returned. -/
def Finds (committed : UInt64) (before : List UInt64) (s : Pins n) : Prop :=
  (∃ k, s.writer = .scanning k committed ∧ s.horizons = before) ∨
    s.writer = .idle ∧ s.horizons = committed :: before

theorem lower_of_level {committed pinned : UInt64}
    (h : pinned = emptySlot ∨ pinned = committed) : lower committed pinned = committed := by
  rw [lower, if_neg]
  rintro ⟨hne, hlt⟩
  rcases h with h | h
  · exact hne h
  · exact UInt64.lt_irrefl _ (h ▸ hlt)

/-- While `horizon` runs, no reader can bring an older epoch in. -/
theorem level_step {committed : UInt64} {before : List UInt64} {s t : Pins n} {a : PinAction n}
    (hs : s.Level committed ∧ s.Finds committed before) (hrun : s.writer ≠ .idle)
    (h : step s a = some t) : t.Level committed ∧ t.Finds committed before := by
  obtain ⟨hlevel, hfinds⟩ := hs
  cases a with
  | pin slot =>
      rw [step] at h
      split at h <;> cases h <;>
        exact ⟨hlevel.setReader slot fun _ hr => (nomatch hr), hfinds⟩
  | read slot =>
      change s.pinStep slot = some t at h
      rw [Pins.pinStep] at h
      split at h
      · cases h
        constructor
        · apply hlevel.setReader slot
          intro e he
          cases he
          exact hlevel.committed
        · exact hfinds
      · rename_i epoch hslot
        cases h
        constructor
        · apply (hlevel.store slot (Or.inr (hlevel.loaded slot epoch hslot))).setReader slot
          intro e he
          cases he
        · exact hfinds
      · cases h
        constructor
        · apply hlevel.setReader slot
          intro e he
          split at he <;> cases he
        · exact hfinds
      · cases h
  | unpin slot =>
      rw [step] at h
      split at h <;> cases h <;>
        exact ⟨(hlevel.store slot (Or.inl rfl)).setReader slot fun _ hr => (nomatch hr), hfinds⟩
  | advance epoch =>
      rw [step, if_neg fun hidle => hrun hidle.1] at h
      cases h
  | horizon =>
      rw [step, if_neg hrun] at h
      cases h
  | scan =>
      change s.scanStep = some t at h
      rw [Pins.scanStep] at h
      rcases hfinds with ⟨k, hwriter, hbefore⟩ | ⟨hidle, _⟩
      · rw [hwriter] at h
        dsimp only at h
        split at h
        · rename_i hk
          cases h
          refine ⟨⟨hlevel.committed, hlevel.slots, hlevel.loaded⟩, Or.inl ⟨k + 1, ?_, hbefore⟩⟩
          dsimp only
          rw [lower_of_level (hlevel.slots ⟨k, hk⟩)]
        · cases h
          exact ⟨⟨hlevel.committed, hlevel.slots, hlevel.loaded⟩,
            Or.inr ⟨rfl, congrArg (committed :: ·) hbefore⟩⟩
      · exact absurd hidle hrun

/-- `horizon` returns after as many accesses of its own as there are slots left. -/
theorem scans_return (k : ℕ) : ∀ (s : Pins n) (slot : ℕ) (horizon : UInt64),
    s.writer = .scanning slot horizon → slot + k = n →
      ∃ t, runAll step s (List.replicate (k + 1) .scan) = some t ∧ t.writer = .idle := by
  induction k with
  | zero =>
      intro s slot horizon hwriter hslot
      have hnot : ¬ slot < n := by omega
      refine ⟨{ s with writer := .idle, horizons := horizon :: s.horizons }, ?_, rfl⟩
      simp [runAll, step, scanStep, hwriter, hnot]
  | succ k ih =>
      intro s slot horizon hwriter hslot
      have hlt : slot < n := by omega
      obtain ⟨t, hrun, hidle⟩ := ih
        { s with writer := .scanning (slot + 1) (lower horizon (s.ledger.slots ⟨slot, hlt⟩)) }
        (slot + 1) _ rfl (by omega)
      refine ⟨t, ?_, hidle⟩
      rw [List.replicate_succ, runAll]
      have hstep : step s .scan = some { s with
          writer := .scanning (slot + 1) (lower horizon (s.ledger.slots ⟨slot, hlt⟩)) } := by
        simp [step, scanStep, hwriter, hlt]
      rw [hstep]
      exact hrun

/-- No horizon the writer has worked out is past the epoch of a pin that is held, and
a `horizon` called with no pin out and none under way returns, and returns the
committed epoch whatever the readers do meanwhile. -/
theorem horizon_bounded_by_pins (epoch : UInt64) (s : Pins n) (h : Reached epoch s) :
    (∀ i e, s.readers i = .held e → ∀ g ∈ s.horizons, g ≤ e) ∧
      (s.writer = .idle → (∀ i, s.readers i = .idle) →
        ∃ t, step s .horizon = some t ∧
          (∃ u, runAll step t (List.replicate (n + 1) .scan) = some u ∧ u.writer = .idle) ∧
          ∀ u, Run step (fun v _ => v.writer ≠ .idle) t u → u.writer = .idle →
            u.horizons = s.ledger.committed :: s.horizons) := by
  have hsafe := safe_of_reached h
  constructor
  · intro i e hi g hg
    exact hsafe.below g hg i e hi
  · intro hidle hreaders
    set t : Pins n := { s with writer := .scanning 0 s.ledger.committed } with ht
    refine ⟨t, by rw [step, if_pos hidle], ?_, ?_⟩
    · exact scans_return n t 0 s.ledger.committed rfl (Nat.zero_add n)
    · intro u hrun hu
      have hlevel : t.Level s.ledger.committed := by
        refine ⟨rfl, fun i => Or.inl ((hsafe.empty i) (hreaders i)), fun i e hi => ?_⟩
        rw [ht] at hi
        rw [hreaders i] at hi
        cases hi
      have hfinds : t.Finds s.ledger.committed s.horizons := Or.inl ⟨0, rfl, rfl⟩
      have hend := (hrun.invariant (fun _ _ _ hs hok hstep => level_step hs hok hstep)
        ⟨hlevel, hfinds⟩).2
      rcases hend with ⟨k, hk, _⟩ | ⟨_, hfound⟩
      · rw [hu] at hk
        cases hk
      · exact hfound

theorem horizon_bounded_by_pins_two : ∃ s : Pins 2,
    runAll step (Pins.new 2 2) [.pin 0, .read 0, .read 0, .read 0, .advance 7, .horizon, .scan,
      .scan, .scan] = some s ∧ s.readers 0 = .held 2 ∧ s.horizons = [2] ∧
      (∀ g ∈ s.horizons, g ≤ 2) ∧
      ∃ t, step (Pins.new 2 2) .horizon = some t ∧
        ∃ u, runAll step t [.scan, .scan, .scan] = some u ∧ u.writer = .idle := by
  have hruns : ∃ s : Pins 2,
      runAll step (Pins.new 2 2) [.pin 0, .read 0, .read 0, .read 0, .advance 7, .horizon, .scan,
        .scan, .scan] = some s ∧ s.readers 0 = .held 2 ∧ s.horizons = [2] := ⟨_, rfl, rfl, rfl⟩
  obtain ⟨s, hrun, hheld, hfound⟩ := hruns
  have hreached : Reached 2 s := Run.of_runAll hrun fun _ _ _ => trivial
  have hbelow := (horizon_bounded_by_pins 2 s hreached).1 0 2 hheld
  obtain ⟨t, ht, hu, _⟩ := (horizon_bounded_by_pins (n := 2) 2 _ (Run.refl _)).2 rfl fun _ => rfl
  exact ⟨s, hrun, hheld, hfound, hbelow, t, ht, hu⟩

end Pins

end Zu.Txn
