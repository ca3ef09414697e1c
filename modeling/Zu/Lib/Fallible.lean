import Mathlib

/-!
# Fallible programs over a state

A program that may fail keeps what it did to the state before it failed, so its
specification has two postconditions: `Triple P x Q E` says that from a state
meeting `P` the program `x` returns into `Q` or fails into `E`. The rules compose
such specifications along a program.
-/

namespace Zu.Lib

variable {ε σ α β : Type}

/-- A program over the state `σ` that returns or fails with an `ε`. -/
abbrev Fallible (ε σ α : Type) := ExceptT ε (StateM σ) α

/-- Runs a program from a state. -/
def Fallible.exec (x : Fallible ε σ α) (s : σ) : Except ε α × σ := x s

/-- From `P` the program returns into `Q` or fails into `E`. -/
def Triple (P : σ → Prop) (x : Fallible ε σ α) (Q : α → σ → Prop)
    (E : σ → Prop) : Prop :=
  ∀ s, P s → (∀ a t, x.exec s = (.ok a, t) → Q a t) ∧
    ∀ e t, x.exec s = (.error e, t) → E t

theorem ok_bind (a : α) (f : α → Except ε β) : (Except.ok a >>= f) = f a := rfl

theorem error_bind (e : ε) (f : α → Except ε β) :
    (Except.error e >>= f) = Except.error e := rfl

/-- A computation that returned ran its first part to a value. -/
theorem except_bind_ok {x : Except ε α} {f : α → Except ε β} {b : β} :
    (x >>= f) = .ok b ↔ ∃ a, x = .ok a ∧ f a = .ok b := by
  cases x with
  | error e =>
      constructor
      · exact fun h => nomatch h
      · rintro ⟨a, h, -⟩
        exact nomatch h
  | ok a =>
      constructor
      · exact fun h => ⟨a, rfl, h⟩
      · rintro ⟨a', h, h'⟩
        cases h
        exact h'

theorem exec_pure (a : α) (s : σ) :
    (pure a : Fallible ε σ α).exec s = (.ok a, s) := rfl

theorem exec_bind (x : Fallible ε σ α) (f : α → Fallible ε σ β) (s : σ) :
    (x >>= f).exec s =
      match x.exec s with
      | (.ok a, t) => (f a).exec t
      | (.error e, t) => (.error e, t) := by
  change (ExceptT.bindCont f (x s).1 : StateM σ (Except ε β)) (x s).2 = _
  cases h : x s with
  | mk r t => cases r <;> simp [ExceptT.bindCont, Fallible.exec, h] <;> rfl

theorem exec_throw (e : ε) (s : σ) :
    (throw e : Fallible ε σ α).exec s = (.error e, s) := rfl

theorem exec_get (s : σ) : (get : Fallible ε σ σ).exec s = (.ok s, s) := rfl

theorem exec_modify (f : σ → σ) (s : σ) :
    (modify f : Fallible ε σ PUnit).exec s = (.ok ⟨⟩, f s) := rfl

/-- A program that returned ran its first part to a value. -/
theorem exec_bind_ok {x : Fallible ε σ α} {f : α → Fallible ε σ β} {s u : σ}
    {b : β} (h : (x >>= f).exec s = (.ok b, u)) :
    ∃ a t, x.exec s = (.ok a, t) ∧ (f a).exec t = (.ok b, u) := by
  rw [exec_bind] at h
  cases hx : x.exec s with
  | mk r t =>
      rw [hx] at h
      cases r with
      | ok a => exact ⟨a, t, rfl, h⟩
      | error e => simp at h

/-- A program that failed did so in its first part or after it. -/
theorem exec_bind_error {x : Fallible ε σ α} {f : α → Fallible ε σ β} {s u : σ}
    {e : ε} (h : (x >>= f).exec s = (.error e, u)) :
    x.exec s = (.error e, u) ∨
      ∃ a t, x.exec s = (.ok a, t) ∧ (f a).exec t = (.error e, u) := by
  rw [exec_bind] at h
  cases hx : x.exec s with
  | mk r t =>
      rw [hx] at h
      cases r with
      | ok a => exact Or.inr ⟨a, t, rfl, h⟩
      | error e' =>
          simp only [Prod.mk.injEq, Except.error.injEq] at h
          exact Or.inl (by rw [h.1, h.2])

namespace Triple

variable {P P' : σ → Prop} {Q Q' : α → σ → Prop} {R : β → σ → Prop}
  {E E' : σ → Prop}

theorem pure {a : α} (h : ∀ s, P s → Q a s) :
    Triple P (Pure.pure a : Fallible ε σ α) Q E := by
  intro s hs
  rw [exec_pure]
  refine ⟨fun b t ht => ?_, fun e t ht => ?_⟩
  · cases ht
    exact h s hs
  · cases ht

theorem bind {x : Fallible ε σ α} {f : α → Fallible ε σ β}
    (hx : Triple P x Q E) (hf : ∀ a, Triple (Q a) (f a) R E) :
    Triple P (x >>= f) R E := by
  intro s hs
  obtain ⟨hok, herr⟩ := hx s hs
  refine ⟨fun b u h => ?_, fun e u h => ?_⟩
  · obtain ⟨a, t, ha, hb⟩ := exec_bind_ok h
    exact (hf a t (hok a t ha)).1 b u hb
  · rcases exec_bind_error h with he | ⟨a, t, ha, hb⟩
    · exact herr e u he
    · exact (hf a t (hok a t ha)).2 e u hb

theorem throw {e : ε} (h : ∀ s, P s → E s) :
    Triple P (MonadExcept.throw e : Fallible ε σ α) Q E := by
  intro s hs
  have hexec : (MonadExcept.throw e : Fallible ε σ α).exec s = (.error e, s) := rfl
  rw [hexec]
  refine ⟨fun b t ht => ?_, fun e t ht => ?_⟩
  · cases ht
  · cases ht
    exact h s hs

theorem get {Q : σ → σ → Prop} (h : ∀ s, P s → Q s s) :
    Triple P (MonadState.get : Fallible ε σ σ) Q E := by
  intro s hs
  have hexec : (MonadState.get : Fallible ε σ σ).exec s = (.ok s, s) := rfl
  rw [hexec]
  refine ⟨fun b t ht => ?_, fun e t ht => ?_⟩
  · cases ht
    exact h s hs
  · cases ht

theorem update {f : σ → σ} {Q : PUnit → σ → Prop} (h : ∀ s, P s → Q ⟨⟩ (f s)) :
    Triple P (modify f : Fallible ε σ PUnit) Q E := by
  intro s hs
  rw [exec_modify]
  refine ⟨fun b t ht => ?_, fun e t ht => ?_⟩
  · cases ht
    exact h s hs
  · cases ht

theorem put {s' : σ} {Q : PUnit → σ → Prop} (h : ∀ s, P s → Q ⟨⟩ s') :
    Triple P (set s' : Fallible ε σ PUnit) Q E := by
  intro s hs
  have hexec : (set s' : Fallible ε σ PUnit).exec s = (.ok ⟨⟩, s') := rfl
  rw [hexec]
  refine ⟨fun a t ht => ?_, fun e t ht => ?_⟩
  · cases ht
    exact h s hs
  · cases ht

/-- A program that reads the state goes on from the state it read. -/
theorem readState {f : σ → Fallible ε σ β}
    (h : ∀ s, P s → Triple (fun t => t = s) (f s) R E) :
    Triple P (MonadState.get >>= f) R E := by
  intro s hs
  have hexec : (MonadState.get >>= f).exec s = (f s).exec s := rfl
  rw [hexec]
  exact h s hs s rfl

/-- A stronger precondition and weaker postconditions. -/
theorem weaken {x : Fallible ε σ α} (h : Triple P x Q E)
    (hP : ∀ s, P' s → P s) (hQ : ∀ a s, Q a s → Q' a s)
    (hE : ∀ s, E s → E' s) : Triple P' x Q' E' := by
  intro s hs
  obtain ⟨hok, herr⟩ := h s (hP s hs)
  exact ⟨fun a t ht => hQ a t (hok a t ht), fun e t ht => hE t (herr e t ht)⟩

/-- A precondition may name a state the program starts from. -/
theorem of_forall {ι : Type*} {P : ι → σ → Prop} {x : Fallible ε σ α}
    (h : ∀ i, Triple (P i) x Q E) : Triple (fun s => ∃ i, P i s) x Q E := by
  rintro s ⟨i, hs⟩
  exact h i s hs

theorem ite {c : Prop} [Decidable c] {x y : Fallible ε σ α}
    (hx : c → Triple P x Q E) (hy : ¬ c → Triple P y Q E) :
    Triple P (if c then x else y) Q E := by
  by_cases hc : c
  · rw [if_pos hc]
    exact hx hc
  · rw [if_neg hc]
    exact hy hc

/-- A program that cannot fail from where it starts returns. -/
theorem returns {x : Fallible ε σ α} (h : Triple P x Q fun _ => False) {s : σ}
    (hs : P s) : ∃ a t, x.exec s = (.ok a, t) ∧ Q a t := by
  obtain ⟨hok, herr⟩ := h s hs
  cases hx : x.exec s with
  | mk r t =>
      cases r with
      | ok a => exact ⟨a, t, rfl, hok a t hx⟩
      | error e => exact (herr e t hx).elim

/-- The state a program leaves meets what it leaves on either way out. -/
theorem exec_snd {P Q : σ → Prop} {x : Fallible ε σ α} (h : Triple P x (fun _ => Q) Q) {s : σ}
    (hs : P s) : Q (x.exec s).2 := by
  obtain ⟨hok, herr⟩ := h s hs
  cases hx : x.exec s with
  | mk r t =>
      cases r with
      | ok a => exact hok a t hx
      | error e => exact herr e t hx

end Triple

end Zu.Lib
