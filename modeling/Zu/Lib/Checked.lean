import Mathlib

/-!
# Operations that can panic

A computation returns, refuses its input, or panics: an index or a slice out of range,
a subtraction below zero, more room asked for than an allocation may have. A sum or a
product too large for a word is a panic in a build that checks for it, and wraps in one
that does not.
-/

namespace Zu.Lib

variable {ε α β : Type}

/-- How a computation ends when it does not return. -/
inductive Stop (ε : Type)
  | refused (e : ε)
  | panicked

/-- A computation that returns, refuses, or panics. -/
abbrev Checked (ε α : Type) := Except (Stop ε) α

/-- A slice of elements of `size` bytes. What is in memory takes at most `isize::MAX`. -/
structure Slice (α : Type) (size : ℕ) where
  items : List α
  fits : items.length * size < 2 ^ 63

namespace Checked

def refuse (e : ε) : Checked ε α := .error (.refused e)

/-- A computation that cannot panic. -/
def ofExcept : Except ε α → Checked ε α
  | .ok a => .ok a
  | .error e => .error (.refused e)

/-- What a sum or product of 64-bit words comes to, in a build with overflow checks or
without. -/
def word (checks : Bool) (n : ℕ) : Checked ε ℕ :=
  if n < 2 ^ 64 then .ok n
  else if checks then .error .panicked
  else .ok (n % 2 ^ 64)

def sub (a b : ℕ) : Checked ε ℕ := if b ≤ a then .ok (a - b) else .error .panicked

def slice (l : List α) (lo hi : ℕ) : Checked ε (List α) :=
  if lo ≤ hi ∧ hi ≤ l.length then .ok ((l.drop lo).take (hi - lo)) else .error .panicked

def index (l : List α) (i : ℕ) : Checked ε α :=
  match l[i]? with
  | some a => .ok a
  | none => .error .panicked

/-- `Vec::with_capacity`, of elements of `size` bytes: an allocation has at most
`isize::MAX` of them. -/
def withCapacity (count size : ℕ) : Checked ε Unit :=
  if count * size < 2 ^ 63 then .ok () else .error .panicked

/-- It returns or refuses. -/
def Calm (x : Checked ε α) : Prop := x ≠ .error .panicked

/-- A vector of elements of `size` bytes, which an allocation has room for or not. -/
def collect {size : ℕ} (items : List α) : Checked ε (Slice α size) :=
  if h : items.length * size < 2 ^ 63 then .ok ⟨items, h⟩ else .error .panicked

@[simp] theorem calm_ok (a : α) : Calm (.ok a : Checked ε α) := fun h => nomatch h

@[simp] theorem calm_refuse (e : ε) : Calm (refuse e : Checked ε α) := fun h => nomatch h

@[simp] theorem calm_refused (e : ε) : Calm (.error (.refused e) : Checked ε α) :=
  fun h => nomatch h

@[simp] theorem not_calm_panicked : ¬ Calm (.error .panicked : Checked ε α) := fun h => h rfl

theorem calm_ofExcept (x : Except ε α) : Calm (ofExcept x) := by
  cases x with
  | ok a => exact calm_ok a
  | error e => exact calm_refused e

theorem ofExcept_ok {x : Except ε α} {a : α} : ofExcept x = .ok a ↔ x = .ok a := by
  cases x with
  | ok b => exact ⟨fun h => congrArg Except.ok (Except.ok.inj h), fun h => congrArg ofExcept h⟩
  | error e =>
      constructor
      · exact fun h => nomatch h
      · exact fun h => nomatch h

theorem withCapacity_ok {count size : ℕ} {u : Unit}
    (h : (withCapacity count size : Checked ε Unit) = .ok u) : count * size < 2 ^ 63 := by
  rw [withCapacity] at h
  split at h
  case isTrue hlt => exact hlt
  case isFalse => exact nomatch h

theorem Calm.bind {x : Checked ε α} {f : α → Checked ε β} (hx : Calm x)
    (hf : ∀ a, x = .ok a → Calm (f a)) : Calm (x >>= f) := by
  cases x with
  | ok a => exact hf a rfl
  | error s =>
      cases s with
      | refused e => exact calm_refused e
      | panicked => exact absurd rfl hx

/-- A computation panics at its first part or after it. -/
theorem calm_bind_iff {x : Checked ε α} {f : α → Checked ε β} :
    Calm (x >>= f) ↔ Calm x ∧ ∀ a, x = .ok a → Calm (f a) := by
  constructor
  · intro h
    cases x with
    | ok a =>
        refine ⟨calm_ok a, fun b hb => ?_⟩
        cases hb
        exact h
    | error s => exact ⟨fun hs => h (congrArg (fun y => y >>= f) hs), fun b hb => nomatch hb⟩
  · exact fun h => h.1.bind h.2

theorem word_of_lt {checks : Bool} {n : ℕ} (h : n < 2 ^ 64) :
    (word checks n : Checked ε ℕ) = .ok n := if_pos h

theorem calm_word_iff {n : ℕ} : Calm (word true n : Checked ε ℕ) ↔ n < 2 ^ 64 := by
  unfold word
  split
  case isTrue h => exact iff_of_true (calm_ok _) h
  case isFalse h =>
    rw [if_pos rfl]
    exact iff_of_false not_calm_panicked h

theorem sub_of_le {a b : ℕ} (h : b ≤ a) : (sub a b : Checked ε ℕ) = .ok (a - b) := if_pos h

theorem slice_of_le {l : List α} {lo hi : ℕ} (h : lo ≤ hi) (h' : hi ≤ l.length) :
    (slice l lo hi : Checked ε (List α)) = .ok ((l.drop lo).take (hi - lo)) := if_pos ⟨h, h'⟩

theorem index_of_getElem? {l : List α} {i : ℕ} {a : α} (h : l[i]? = some a) :
    (index l i : Checked ε α) = .ok a := by
  rw [index, h]

theorem withCapacity_of_lt {count size : ℕ} (h : count * size < 2 ^ 63) :
    (withCapacity count size : Checked ε Unit) = .ok () := if_pos h

theorem withCapacity_of_le {count size : ℕ} (h : 2 ^ 63 ≤ count * size) :
    (withCapacity count size : Checked ε Unit) = .error .panicked := if_neg (Nat.not_lt.2 h)

end Checked

end Zu.Lib
