import Mathlib

/-!
# Loops that pull and hand over

A loop that pulls from a source and hands each piece to a sink, either of which may
fail. Unlike a program in `Except`, it says what the sink held when it failed.
-/

namespace Zu.Lib

variable {ε α β γ σ τ : Type}

/-- Goes on with what a computation gives, or stops at its error. -/
def attempt (x : Except ε α) (s : σ) (k : α → Except ε Unit × σ) : Except ε Unit × σ :=
  match x with
  | .error e => (.error e, s)
  | .ok a => k a

/-- Pulls pieces from `c` and hands them to `sink`, at most `fuel` of them. -/
def pull (next : γ → Except ε (Option (β × γ))) (sink : σ → β → Except ε Unit × σ) :
    ℕ → γ → σ → Except ε Unit × σ
  | 0, _, s => (.ok (), s)
  | fuel + 1, c, s =>
      match next c with
      | .error e => (.error e, s)
      | .ok none => (.ok (), s)
      | .ok (some (b, c)) =>
          match sink s b with
          | (.error e, s) => (.error e, s)
          | (.ok _, s) => pull next sink fuel c s

attribute [grind =] pull

section

variable {next : γ → Except ε (Option (β × γ))} {sink : σ → β → Except ε Unit × σ}

/-- A sink that does the same up to `f` makes the loop do the same up to `f`. -/
theorem pull_map {sink' : τ → β → Except ε Unit × τ} {f : σ → τ}
    (h : ∀ s b, sink' (f s) b = ((sink s b).1, f (sink s b).2)) (fuel : ℕ) (c : γ) (s : σ) :
    pull next sink' fuel c (f s) = ((pull next sink fuel c s).1, f (pull next sink fuel c s).2) := by
  induction fuel generalizing c s with
  | zero => rfl
  | succ fuel ih =>
      rw [pull, pull]
      cases next c with
      | error e => rfl
      | ok piece =>
          cases piece with
          | none => rfl
          | some p =>
              simp only [h]
              cases hsink : sink s p.1 with
              | mk r t =>
                  cases r with
                  | error e => rfl
                  | ok u => exact ih p.2 t

/-- A sink that only grows makes the loop grow. -/
theorem le_pull {size : σ → ℕ} (h : ∀ s b, size s ≤ size (sink s b).2) (fuel : ℕ) (c : γ)
    (s : σ) : size s ≤ size (pull next sink fuel c s).2 := by
  induction fuel generalizing c s with
  | zero => exact le_rfl
  | succ fuel ih =>
      rw [pull]
      cases next c with
      | error e => exact le_rfl
      | ok piece =>
          cases piece with
          | none => exact le_rfl
          | some p =>
              have hstep := h s p.1
              simp only
              cases hsink : sink s p.1 with
              | mk r t =>
                  rw [hsink] at hstep
                  cases r with
                  | error e => exact hstep
                  | ok u => exact hstep.trans (ih p.2 t)

/-- A sink that grows with every piece has not grown when nothing was pulled, and only
then. -/
theorem pull_size_eq_iff {size : σ → ℕ} {fuel : ℕ} {c : γ} {s : σ}
    (h : ∀ s b, size s ≤ size (sink s b).2)
    (hfirst : ∀ b c', next c = .ok (some (b, c')) → size s < size (sink s b).2) :
    size (pull next sink (fuel + 1) c s).2 = size s ↔ ∀ b c', next c ≠ .ok (some (b, c')) := by
  rw [pull]
  cases hnext : next c with
  | error e => exact iff_of_true rfl fun b c' hor => nomatch hor
  | ok piece =>
      cases piece with
      | none => exact iff_of_true rfl fun b c' hor => nomatch hor
      | some p =>
          have hstep := hfirst p.1 p.2 hnext
          have hgrown : size s < size (match sink s p.1 with
              | (.error e, s) => ((.error e : Except ε Unit), s)
              | (.ok _, s) => pull next sink fuel p.2 s).2 := by
            cases hsink : sink s p.1 with
            | mk r t =>
                rw [hsink] at hstep
                cases r with
                | error e => exact hstep
                | ok u => exact hstep.trans_le (le_pull h fuel p.2 t)
          exact iff_of_false hgrown.ne' fun hor => hor p.1 p.2 rfl

end

end Zu.Lib
