import Mathlib

/-!
# The last value written

A plain map as the list of its entries, each key once: writing a key drops what was
written to it before.
-/

namespace Zu

namespace Lib

variable {κ α : Type*} [DecidableEq κ]

def write (k : κ) (v : α) (l : List (κ × α)) : List (κ × α) :=
  (k, v) :: l.filter fun e => e.1 ≠ k

/-- What was last written at `k`. -/
def latest (k : κ) (l : List (κ × α)) : Option α := (l.find? fun e => e.1 = k).map Prod.snd

@[simp] theorem latest_nil (k : κ) : latest k ([] : List (κ × α)) = none := rfl

theorem latest_cons (k : κ) (e : κ × α) (l : List (κ × α)) :
    latest k (e :: l) = if e.1 = k then some e.2 else latest k l := by
  rw [latest]
  split
  case isTrue h =>
    rw [List.find?_cons_of_pos (by simpa using h)]
    rfl
  case isFalse h => rw [List.find?_cons_of_neg (by simpa using h), latest]

theorem latest_filter_ne {k k' : κ} (h : k' ≠ k) (l : List (κ × α)) :
    latest k' (l.filter fun e => e.1 ≠ k) = latest k' l := by
  induction l with
  | nil => rfl
  | cons e l ih =>
      by_cases he : e.1 = k
      · rw [List.filter_cons_of_neg (by simpa using he), ih, latest_cons,
          if_neg fun heq => h (heq.symm.trans he)]
      · rw [List.filter_cons_of_pos (by simpa using he), latest_cons, latest_cons, ih]

theorem latest_write (k k' : κ) (v : α) (l : List (κ × α)) :
    latest k' (write k v l) = if k = k' then some v else latest k' l := by
  rw [write, latest_cons]
  split
  case isTrue => rfl
  case isFalse h => exact latest_filter_ne (Ne.symm h) l

theorem nodup_write {l : List (κ × α)} (h : (l.map Prod.fst).Nodup) (k : κ) (v : α) :
    ((write k v l).map Prod.fst).Nodup := by
  rw [write, List.map_cons, List.nodup_cons]
  constructor
  · intro hmem
    obtain ⟨e, he, hk⟩ := List.mem_map.1 hmem
    simpa [hk] using (List.mem_filter.1 he).2
  · exact h.sublist ((List.filter_sublist).map Prod.fst)

/-- A key that is new adds to a sum over the entries, and one that is not replaces. -/
theorem sum_write {l : List (κ × α)} (h : (l.map Prod.fst).Nodup) (f : α → ℕ) (k : κ) (v : α) :
    ((write k v l).map fun e => f e.2).sum + ((latest k l).map f).getD 0 =
      (l.map fun e => f e.2).sum + f v := by
  have hrest : ((l.filter fun e => e.1 ≠ k).map fun e => f e.2).sum +
      ((latest k l).map f).getD 0 = (l.map fun e => f e.2).sum := by
    induction l with
    | nil => rfl
    | cons e l ih =>
        rw [List.map_cons, List.nodup_cons] at h
        have hl := ih h.2
        by_cases he : e.1 = k
        · have hnone : latest k l = none := by
            rw [latest, Option.map_eq_none_iff, List.find?_eq_none]
            intro e' he' heq
            have hsame : e'.1 = k := by simpa using heq
            exact h.1 (List.mem_map.2 ⟨e', he', hsame.trans he.symm⟩)
          rw [hnone] at hl
          rw [List.filter_cons_of_neg (by simpa using he), latest_cons, if_pos he, List.map_cons,
            List.sum_cons]
          simp only [Option.map_none, Option.getD_none, Option.map_some, Option.getD_some] at hl ⊢
          omega
        · rw [List.filter_cons_of_pos (by simpa using he), latest_cons, if_neg he, List.map_cons,
            List.sum_cons, List.map_cons, List.sum_cons]
          omega
  rw [write, List.map_cons, List.sum_cons]
  calc f v + ((l.filter fun e => e.1 ≠ k).map fun e => f e.2).sum + ((latest k l).map f).getD 0
      = f v + (l.map fun e => f e.2).sum := by rw [Nat.add_assoc, hrest]
    _ = (l.map fun e => f e.2).sum + f v := Nat.add_comm _ _

theorem length_write {l : List (κ × α)} (h : (l.map Prod.fst).Nodup) (k : κ) (v : α) :
    (write k v l).length = if (latest k l).isSome then l.length else l.length + 1 := by
  have hsum := sum_write h (fun _ => 1) k v
  have hcount : ∀ m : List (κ × α), (m.map fun _ => 1).sum = m.length := by
    intro m
    induction m with
    | nil => rfl
    | cons e m ih => rw [List.map_cons, List.sum_cons, ih, List.length_cons, Nat.add_comm]
  rw [hcount, hcount] at hsum
  cases hlatest : latest k l with
  | none =>
      rw [hlatest] at hsum
      simpa using hsum
  | some w =>
      rw [hlatest] at hsum
      simpa using hsum

end Lib

end Zu

/-!
## A value and copies of it

A value that calls change, with the copies of it that were taken between them and are
read until they are let go of. A copy is the value as it was.
-/

namespace Zu

namespace Lib

variable {S W : Type*}

/-- A call, a copy taken, and a copy let go of. -/
inductive Event (W : Type*)
  | call (write : W)
  | share
  | release (i : ℕ)

structure Copies (S : Type*) where
  now : S
  readers : List S := []

def Copies.step (apply : S → W → S) (c : Copies S) : Event W → Copies S
  | .call write => { c with now := apply c.now write }
  | .share => { c with readers := c.now :: c.readers }
  | .release i => { c with readers := c.readers.eraseIdx i }

theorem forall₂_eraseIdx {α β : Type*} {R : α → β → Prop} {l : List α} {m : List β}
    (h : List.Forall₂ R l m) (i : ℕ) : List.Forall₂ R (l.eraseIdx i) (m.eraseIdx i) := by
  induction h generalizing i with
  | nil => exact List.Forall₂.nil
  | cons hab hrest ih =>
      cases i with
      | zero => exact hrest
      | succ i => exact List.Forall₂.cons hab (ih i)

end Lib

end Zu
