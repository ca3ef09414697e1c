import Zu.Lib.Checked

/-!
# Loops without a bound

A loop is what one turn of it does: end with a result, or go on from another state.
Nothing in it says that it ends, so that it does is a statement about the states it
goes through.
-/

namespace Zu

namespace Lib

variable {σ ρ : Type}

/-- The loop ends with `r` from `s`. -/
inductive Ends (turn : σ → ρ ⊕ σ) : σ → ρ → Prop
  | done {s : σ} {r : ρ} (h : turn s = .inl r) : Ends turn s r
  | again {s t : σ} {r : ρ} (h : turn s = .inr t) (hrest : Ends turn t r) : Ends turn s r

def loop (turn : σ → ρ ⊕ σ) : ℕ → σ → Option ρ
  | 0, _ => none
  | turns + 1, s =>
      match turn s with
      | .inl r => some r
      | .inr t => loop turn turns t

/-- A loop ends where a turn that goes on keeps an invariant and leaves less to do. -/
theorem loop_ends {turn : σ → ρ ⊕ σ} {inv : σ → Prop} {todo : σ → ℕ} {post : ρ → Prop}
    (hturn : ∀ s, inv s → (∃ r, turn s = .inl r ∧ post r) ∨
      ∃ t, turn s = .inr t ∧ inv t ∧ todo t < todo s)
    {turns : ℕ} {s : σ} (hs : inv s) (hmany : todo s < turns) :
    ∃ r, loop turn turns s = some r ∧ post r := by
  induction turns generalizing s with
  | zero => exact absurd hmany (Nat.not_lt_zero _)
  | succ turns ih =>
      obtain ⟨r, hr, hpost⟩ | ⟨t, ht, hinv, hless⟩ := hturn s hs
      · refine ⟨r, ?_, hpost⟩
        rw [loop, hr]
      · obtain ⟨r, hr, hpost⟩ := ih hinv (Nat.lt_of_lt_of_le hless (Nat.le_of_lt_succ hmany))
        refine ⟨r, ?_, hpost⟩
        rw [loop, ht]
        exact hr

end Lib

end Zu

/-!
## Computations of so many turns

A computation with loops in it, which is cut off after so many turns of each, returns, or
stops. What it returns is stated with what was asked of it, one rule for each way of putting
computations together.
-/

namespace Zu

namespace Lib

/-- A computation that may be cut off, return, or panic. -/
abbrev Turns (α : Type) := ExceptT (Stop Unit) Option α

/-- It returns, with what was asked of it. -/
def Returns {α : Type} (x : Turns α) (post : α → Prop) : Prop :=
  ∃ a, x.run = some (.ok a) ∧ post a

variable {α β : Type}

theorem Returns.bind {x : Turns α} {f : α → Turns β} {post : α → Prop} {post' : β → Prop}
    (hx : Returns x post) (hf : ∀ a, post a → Returns (f a) post') : Returns (x >>= f) post' := by
  obtain ⟨a, ha, hpost⟩ := hx
  obtain ⟨b, hb, hpost'⟩ := hf a hpost
  refine ⟨b, ?_, hpost'⟩
  rw [ExceptT.run_bind, ha]
  exact hb

theorem Returns.pure {a : α} {post : α → Prop} (h : post a) :
    Returns (pure a : Turns α) post := ⟨a, rfl, h⟩

theorem Returns.weaken {x : Turns α} {post post' : α → Prop} (h : Returns x post)
    (himp : ∀ a, post a → post' a) : Returns x post' := by
  obtain ⟨a, ha, hpost⟩ := h
  exact ⟨a, ha, himp a hpost⟩

/-- A pass over a list returns where each of its steps does. -/
theorem Returns.foldlM {f : β → α → Turns β} {inv : List α → β → Prop} (l : List α)
    (hstep : ∀ done, ∀ a ∈ l, ∀ b, inv done b → Returns (f b a) (inv (done ++ [a])))
    {done : List α} {b : β} (h : inv done b) : Returns (l.foldlM f b) (inv (done ++ l)) := by
  induction l generalizing done b with
  | nil =>
      rw [List.append_nil]
      exact Returns.pure h
  | cons a l ih =>
      rw [List.foldlM_cons]
      refine Returns.bind (hstep done a List.mem_cons_self b h) fun b' h' => ?_
      have hrest := ih (fun done a' ha' => hstep done a' (List.mem_cons_of_mem a ha')) h'
      rw [← List.append_cons] at hrest
      exact hrest

end Lib

end Zu

/-!
## Computations that are cut off or fail

A computation with loops in it, which is cut off after so many turns of each, and may fail.
That it comes to its end is stated with what it answers then and with what must be the case
where it fails, one rule for each way of putting computations together.
-/

namespace Zu

namespace Lib

/-- A computation that may be cut off, answer, or fail. -/
abbrev Timed (ε α : Type) := ExceptT ε Option α

variable {ε α β : Type}

/-- A computation that is not cut off. -/
def Timed.of (x : Except ε α) : Timed ε α := ExceptT.mk (some x)

/-- A computation that is cut off. -/
def Timed.cut : Timed ε α := ExceptT.mk none

/-- It comes to its end: it answers with what was asked of it, or fails in a case where it
may. -/
def Settles (x : Timed ε α) (fails : Prop) (post : α → Prop) : Prop :=
  ∃ r, x.run = some r ∧ (∀ a, r = .ok a → post a) ∧ ∀ e, r = .error e → fails

variable {fails fails' : Prop} {post : α → Prop} {post' : β → Prop}

theorem Settles.pure {a : α} (h : post a) : Settles (pure a : Timed ε α) fails post :=
  ⟨.ok a, rfl, fun _ heq => Except.ok.inj heq ▸ h, fun _ heq => nomatch heq⟩

theorem Settles.of {x : Except ε α} (hok : ∀ a, x = .ok a → post a)
    (herror : ∀ e, x = .error e → fails) : Settles (Timed.of x) fails post :=
  ⟨x, rfl, hok, herror⟩

theorem Settles.bind {x : Timed ε α} {f : α → Timed ε β} (hx : Settles x fails post)
    (hf : ∀ a, post a → Settles (f a) fails post') : Settles (x >>= f) fails post' := by
  obtain ⟨r, hr, hok, herror⟩ := hx
  cases r with
  | error e =>
      refine ⟨.error e, ?_, ⟨fun _ heq => (nomatch heq), fun _ _ => herror e rfl⟩⟩
      rw [ExceptT.run_bind, hr]
      rfl
  | ok a =>
      obtain ⟨r, hr', hpost⟩ := hf a (hok a rfl)
      refine ⟨r, ?_, hpost⟩
      rw [ExceptT.run_bind, hr]
      exact hr'

theorem Settles.map {x : Timed ε α} {f : α → β} (h : Settles x fails fun a => post' (f a)) :
    Settles (f <$> x) fails post' := by
  rw [map_eq_pure_bind]
  exact Settles.bind h fun _ ha => Settles.pure ha

theorem Settles.weaken {x : Timed ε α} {post' : α → Prop} (h : Settles x fails post)
    (hfails : fails → fails') (hpost : ∀ a, post a → post' a) : Settles x fails' post' := by
  obtain ⟨r, hr, hok, herror⟩ := h
  exact ⟨r, hr, fun a ha => hpost a (hok a ha), fun e he => hfails (herror e he)⟩

/-- What it answers is what it comes to. -/
theorem Settles.ran {x : Timed ε α} (h : Settles x fails post) :
    Settles x fails fun a => x.run = some (.ok a) ∧ post a := by
  obtain ⟨r, hr, hok, herror⟩ := h
  refine ⟨r, hr, fun a ha => ⟨?_, hok a ha⟩, herror⟩
  rw [hr, ha]

/-- A pass over a list comes to its end where each of its steps does. -/
theorem Settles.foldlM_from {f : β → α → Timed ε β} {inv : List α → β → Prop} (l : List α)
    (hstep : ∀ done, ∀ a ∈ l, ∀ b, inv done b → Settles (f b a) fails (inv (done ++ [a])))
    {done : List α} {b : β} (h : inv done b) :
    Settles (l.foldlM f b) fails (inv (done ++ l)) := by
  induction l generalizing done b with
  | nil =>
      rw [List.append_nil]
      exact Settles.pure h
  | cons a l ih =>
      rw [List.foldlM_cons]
      apply Settles.bind (hstep done a List.mem_cons_self b h)
      intro b' h'
      have hrest := ih (fun done a' ha' => hstep done a' (List.mem_cons_of_mem a ha')) h'
      rw [← List.append_cons] at hrest
      exact hrest

theorem Settles.foldlM {f : β → α → Timed ε β} (inv : List α → β → Prop) {l : List α} {b : β}
    (h : inv [] b)
    (hstep : ∀ done, ∀ a ∈ l, ∀ b, inv done b → Settles (f b a) fails (inv (done ++ [a]))) :
    Settles (l.foldlM f b) fails (inv l) :=
  Settles.foldlM_from l hstep h

end Lib

end Zu
