import Mathlib

/-!
# Workers

Several workers over one shared state, in any order of their steps. A schedule names the
worker of each step; where it ends, what is left is done one worker after another, so
that every schedule ends with nothing to do.
-/

namespace Zu.Lib

/-- What a worker does in one step, and how many steps it has left at most. -/
structure Worker (σ κ : Type*) where
  step : σ → κ → σ × κ
  todo : σ → κ → ℕ
  step_todo : ∀ s k, 0 < todo s k → todo (step s k).1 (step s k).2 < todo s k
  step_idle : ∀ s k, todo s k = 0 → step s k = (s, k)
  step_other : ∀ s k j, todo (step s k).1 j ≤ todo s j

namespace Worker

variable {σ κ : Type*} (m : Worker σ κ)

/-- One step of the worker with a number. -/
def turn (st : σ × List κ) (i : ℕ) : σ × List κ :=
  match st.2[i]? with
  | none => st
  | some k => ((m.step st.1 k).1, st.2.set i (m.step st.1 k).2)

def run (st : σ × List κ) (schedule : List ℕ) : σ × List κ := schedule.foldl m.turn st

/-- The steps that a worker has left. -/
def left (st : σ × List κ) (i : ℕ) : ℕ := (st.2[i]?.map (m.todo st.1)).getD 0

/-- As many steps of each worker as it has left. -/
def rest (st : σ × List κ) : List ℕ :=
  (List.range st.2.length).flatMap fun i => List.replicate (m.left st i) i

/-- The steps of a schedule, and then those that are left. -/
def work (st : σ × List κ) (schedule : List ℕ) : σ × List κ :=
  m.run (m.run st schedule) (m.rest (m.run st schedule))

variable {m} {p : σ × List κ → Prop}

theorem run_append (st : σ × List κ) (a b : List ℕ) : m.run st (a ++ b) = m.run (m.run st a) b :=
  List.foldl_append

/-- A step changes the state and its own worker, and no other. -/
theorem turn_cases (st : σ × List κ) (i : ℕ) :
    m.turn st i = st ∨ ∃ before k after, st.2 = before ++ k :: after ∧
      m.turn st i = ((m.step st.1 k).1, before ++ (m.step st.1 k).2 :: after) := by
  rw [turn]
  cases h : st.2[i]? with
  | none => exact Or.inl rfl
  | some k =>
      obtain ⟨hi, hk⟩ := List.getElem?_eq_some_iff.1 h
      obtain ⟨before, after, hsplit, -, hset⟩ : ∃ before after,
          st.2 = before ++ st.2[i] :: after ∧ before.length = i ∧
            st.2.set i (m.step st.1 k).2 = before ++ (m.step st.1 k).2 :: after :=
        List.exists_of_set hi
      rw [hk] at hsplit
      exact Or.inr ⟨before, k, after, hsplit, congrArg (Prod.mk _) hset⟩

/-- What every step keeps holds after a schedule. -/
theorem run_induction
    (hstep : ∀ s before k after, p (s, before ++ k :: after) →
      p ((m.step s k).1, before ++ (m.step s k).2 :: after))
    {st : σ × List κ} (schedule : List ℕ) (h : p st) : p (m.run st schedule) := by
  induction schedule generalizing st with
  | nil => exact h
  | cons i schedule ih =>
      refine ih ?_
      rcases turn_cases (m := m) st i with heq | ⟨before, k, after, hst, heq⟩
      · rw [heq]
        exact h
      · rw [heq]
        apply hstep
        rw [← hst]
        exact h

theorem work_induction
    (hstep : ∀ s before k after, p (s, before ++ k :: after) →
      p ((m.step s k).1, before ++ (m.step s k).2 :: after))
    {st : σ × List κ} (schedule : List ℕ) (h : p st) : p (m.work st schedule) :=
  run_induction hstep _ (run_induction hstep _ h)

theorem left_turn_self (st : σ × List κ) (i : ℕ) : m.left (m.turn st i) i ≤ m.left st i - 1 := by
  rw [left, left, turn]
  cases h : st.2[i]? with
  | none => simp [h]
  | some k =>
      have hlen : i < st.2.length := (List.getElem?_eq_some_iff.1 h).1
      rcases Nat.eq_zero_or_pos (m.todo st.1 k) with hidle | hpos
      · simp [m.step_idle _ _ hidle, hlen, hidle]
      · have := m.step_todo st.1 k hpos
        simp [hlen]
        omega

theorem left_turn_of_ne (st : σ × List κ) {i j : ℕ} (h : i ≠ j) :
    m.left (m.turn st i) j ≤ m.left st j := by
  rw [left, left, turn]
  cases st.2[i]? with
  | none => exact Nat.le_refl _
  | some k =>
      cases hj : st.2[j]? with
      | none => simp [h, hj]
      | some l => simpa [h, hj] using m.step_other st.1 k l

theorem left_replicate (k i : ℕ) (st : σ × List κ) :
    m.left (m.run st (List.replicate k i)) i ≤ m.left st i - k ∧
      ∀ j, i ≠ j → m.left (m.run st (List.replicate k i)) j ≤ m.left st j := by
  induction k generalizing st with
  | zero => exact ⟨Nat.le_refl _, fun j _ => Nat.le_refl _⟩
  | succ k ih =>
      obtain ⟨hself, hother⟩ := ih (m.turn st i)
      have hturn := left_turn_self (m := m) st i
      constructor
      · refine Nat.le_trans hself ?_
        omega
      · exact fun j hj => Nat.le_trans (hother j hj) (left_turn_of_ne st hj)

/-- Nothing is left of the workers whose steps were all made. -/
theorem left_rest (f : ℕ → ℕ) (is : List ℕ) (hnodup : is.Nodup) (st : σ × List κ)
    (hf : ∀ i ∈ is, m.left st i ≤ f i) :
    (∀ i ∈ is, m.left (m.run st (is.flatMap fun i => List.replicate (f i) i)) i = 0) ∧
      ∀ j, j ∉ is → m.left (m.run st (is.flatMap fun i => List.replicate (f i) i)) j ≤ m.left st j := by
  induction is generalizing st with
  | nil => exact ⟨fun i hi => (List.not_mem_nil hi).elim, fun j _ => Nat.le_refl _⟩
  | cons i is ih =>
      rw [List.nodup_cons] at hnodup
      rw [List.flatMap_cons, run_append]
      obtain ⟨hself, hother⟩ := left_replicate (m := m) (f i) i st
      obtain ⟨hdone, hkept⟩ := ih hnodup.2 (m.run st (List.replicate (f i) i)) fun j hj =>
        Nat.le_trans (hother j fun heq => hnodup.1 (heq ▸ hj)) (hf j (List.mem_cons_of_mem i hj))
      constructor
      · intro j hj
        rcases List.mem_cons.1 hj with rfl | hj
        · have hj := hkept j hnodup.1
          have := hf j List.mem_cons_self
          omega
        · exact hdone j hj
      · intro j hj
        rw [List.mem_cons, not_or] at hj
        exact Nat.le_trans (hkept j hj.2) (hother j fun heq => hj.1 heq.symm)

theorem run_length (st : σ × List κ) (schedule : List ℕ) :
    (m.run st schedule).2.length = st.2.length :=
  run_induction (p := fun x => x.2.length = st.2.length)
    (fun s before k after hx => by simpa using hx) schedule rfl

/-- Where every step is made no worker has anything left. -/
theorem work_done (st : σ × List κ) (schedule : List ℕ) :
    ∀ k ∈ (m.work st schedule).2, m.todo (m.work st schedule).1 k = 0 := by
  intro k hk
  obtain ⟨i, hi, hget⟩ := List.getElem_of_mem hk
  have hlength : i < (m.run st schedule).2.length := by
    rw [work, run_length] at hi
    exact hi
  have hdone := (left_rest (m := m) (m.left (m.run st schedule))
    (List.range (m.run st schedule).2.length) List.nodup_range (m.run st schedule)
    fun i _ => Nat.le_refl _).1 i (List.mem_range.2 hlength)
  have hleft : m.left (m.work st schedule) i = m.todo (m.work st schedule).1 k := by
    rw [left, List.getElem?_eq_getElem hi, hget]
    rfl
  rw [← hleft]
  exact hdone

end Worker

end Zu.Lib
