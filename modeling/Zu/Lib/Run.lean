import Mathlib

/-!
# Runs of a labelled step function

A system is a partial step function `step : σ → α → Option σ`; `none` means the
action is not enabled. `Run step ok s s'` is the reflexive transitive closure of
the enabled steps whose action meets the side condition `ok` in the state it is
taken from, and `runAll` is its executable form over a list of actions. An
invariant is proved once for one step and carried to every run by
`Run.invariant`.
-/

namespace Zu.Lib

variable {σ α : Type*}

/-- The states a run of enabled steps reaches, each action meeting `ok` where it
is taken. -/
inductive Run (step : σ → α → Option σ) (ok : σ → α → Prop) : σ → σ → Prop
  | refl (s : σ) : Run step ok s s
  | tail {s t u : σ} {a : α} : Run step ok s t → ok t a → step t a = some u →
      Run step ok s u

/-- The side condition that every action meets. -/
def anyAction : σ → α → Prop := fun _ _ => True

/-- What one step preserves, a whole run preserves. -/
theorem Run.invariant {step : σ → α → Option σ} {ok : σ → α → Prop}
    {Inv : σ → Prop}
    (hstep : ∀ s a u, Inv s → ok s a → step s a = some u → Inv u)
    {s t : σ} (h : Run step ok s t) (hs : Inv s) : Inv t := by
  induction h with
  | refl => exact hs
  | tail _ hok hu ih => exact hstep _ _ _ ih hok hu

theorem Run.trans {step : σ → α → Option σ} {ok : σ → α → Prop} {s t u : σ}
    (h : Run step ok s t) (h' : Run step ok t u) : Run step ok s u := by
  induction h' with
  | refl => exact h
  | tail _ hok hu ih => exact ih.tail hok hu

/-- Takes the actions of a list in order. -/
def runAll (step : σ → α → Option σ) : σ → List α → Option σ
  | s, [] => some s
  | s, a :: as => (step s a).bind fun t => runAll step t as

/-- A list of enabled actions that always meet the side condition is a run. -/
theorem Run.of_runAll {step : σ → α → Option σ} {ok : σ → α → Prop} :
    ∀ {s t : σ} {as : List α}, runAll step s as = some t →
      (∀ a ∈ as, ∀ u, ok u a) → Run step ok s t
  | s, t, [], h, _ => by
      cases h
      exact Run.refl _
  | s, t, a :: as, h, hok => by
      obtain ⟨u, hu, hrest⟩ := Option.bind_eq_some_iff.1 h
      have hfirst : Run step ok s u :=
        (Run.refl s).tail (hok a (by simp) s) hu
      exact hfirst.trans
        (Run.of_runAll hrest fun b hb => hok b (by simp [hb]))

/-- A list of enabled actions each of which passes a check for the side condition is a
run. -/
theorem Run.of_checked {step : σ → α → Option σ} {ok : σ → α → Prop} {check : σ → α → Bool}
    (hcheck : ∀ s a, check s a = true → ok s a) {t : σ} :
    ∀ {s : σ} {as : List α},
      runAll (fun s a => if check s a then step s a else none) s as = some t → Run step ok s t
  | s, [], h => by
      cases h
      exact Run.refl _
  | s, a :: as, h => by
      obtain ⟨u, hu, hrest⟩ := Option.bind_eq_some_iff.1 h
      dsimp only at hu
      split_ifs at hu with ha
      have hfirst : Run step ok s u := (Run.refl s).tail (hcheck s a ha) hu
      exact hfirst.trans (Run.of_checked hcheck hrest)

end Zu.Lib
