import Mathlib

/-!
# Chains in an array

Items numbered from zero are put in buckets by key. A bucket is a chain: its head
is the last item that was put in it, and an item's slot of `next` is the item put in
the bucket before it. `stop` is the number that ends a chain. `Linked` says which
items a chain runs over; `fill` puts items in one after the other, and each bucket
then runs over the items with its key, the last one first.
-/

namespace Zu.Lib

variable {κ : Type*} [DecidableEq κ]

/-- The heads of the chains and the items that follow the items. -/
structure Buckets (κ : Type*) where
  heads : κ → ℕ
  next : List ℕ

namespace Buckets

/-- Empty buckets for `n` items. -/
def empty (stop n : ℕ) : Buckets κ :=
  { heads := fun _ => stop, next := List.replicate n stop }

/-- Puts an item at the front of a chain. -/
def push (bs : Buckets κ) (k : κ) (i : ℕ) : Buckets κ :=
  { heads := Function.update bs.heads k i, next := bs.next.set i (bs.heads k) }

theorem push_heads_self (bs : Buckets κ) (k : κ) (i : ℕ) : (bs.push k i).heads k = i :=
  Function.update_self ..

theorem push_heads_of_ne (bs : Buckets κ) {k k' : κ} (h : k ≠ k') (i : ℕ) :
    (bs.push k i).heads k' = bs.heads k' :=
  Function.update_of_ne h.symm ..

theorem push_next (bs : Buckets κ) (k : κ) (i : ℕ) :
    (bs.push k i).next = bs.next.set i (bs.heads k) := rfl

/-- The chain from `i` runs over the items of the list. -/
def Linked (stop : ℕ) (next : List ℕ) : ℕ → List ℕ → Prop
  | i, [] => i = stop
  | i, j :: js => i = j ∧ j < next.length ∧ j ≠ stop ∧ Linked stop next (next.getD j stop) js

/-- The first item of a chain that `f` has something for. -/
def walk {α : Type*} (stop : ℕ) (next : List ℕ) (f : ℕ → Option α) : ℕ → ℕ → Option α
  | 0, _ => none
  | fuel + 1, i =>
      if i = stop then none
      else
        match f i with
        | some a => some a
        | none => walk stop next f fuel (next.getD i stop)

theorem walk_linked {α : Type*} {stop : ℕ} {next : List ℕ} (f : ℕ → Option α) {i : ℕ}
    {js : List ℕ} (h : Linked stop next i js) {fuel : ℕ} (hfuel : js.length ≤ fuel) :
    walk stop next f fuel i = js.findSome? f := by
  induction js generalizing i fuel with
  | nil =>
      rw [Linked] at h
      cases fuel with
      | zero => rfl
      | succ fuel => rw [walk, if_pos h, List.findSome?_nil]
  | cons j js ih =>
      obtain ⟨rfl, -, hstop, hrest⟩ := h
      cases fuel with
      | zero => exact absurd hfuel (Nat.not_succ_le_zero _)
      | succ fuel =>
          rw [walk, if_neg hstop, List.findSome?_cons]
          cases f i with
          | some a => rfl
          | none => exact ih hrest (Nat.le_of_succ_le_succ hfuel)

/-- A chain does not see the slot of an item that is not on it. -/
theorem Linked.set {stop : ℕ} {next : List ℕ} {i : ℕ} {js : List ℕ}
    (h : Linked stop next i js) {k : ℕ} (hk : k ∉ js) (n : ℕ) :
    Linked stop (next.set k n) i js := by
  induction js generalizing i with
  | nil => exact h
  | cons j js ih =>
      obtain ⟨rfl, hlt, hstop, hrest⟩ := h
      rw [List.mem_cons, not_or] at hk
      constructor
      · rfl
      · rw [List.length_set, List.getD_eq_getElem?_getD, List.getElem?_set_ne hk.1,
          ← List.getD_eq_getElem?_getD]
        exact ⟨hlt, hstop, ih hrest hk.2⟩

def fill (key : ℕ → κ) (bs : Buckets κ) (items : List ℕ) : Buckets κ :=
  items.foldl (fun bs i => bs.push (key i) i) bs

/-- The chain of a key runs over the items with that key, the last one first. The
induction is on the items, over what the chains run over already. -/
theorem linked_fill {stop : ℕ} (key : ℕ → κ) {bs : Buckets κ} {done items : List ℕ}
    (hdone : ∀ k, Linked stop bs.next (bs.heads k) (done.filter fun i => key i = k).reverse)
    (hnodup : (done ++ items).Nodup) (hitems : ∀ i ∈ items, i < bs.next.length ∧ i ≠ stop)
    (k : κ) : Linked stop (bs.fill key items).next ((bs.fill key items).heads k)
      ((done ++ items).filter fun i => key i = k).reverse := by
  induction items generalizing bs done with
  | nil =>
      rw [List.append_nil]
      exact hdone k
  | cons i items ih =>
      obtain ⟨hlt, hstop⟩ := hitems i List.mem_cons_self
      have hfresh : i ∉ done := fun hi =>
        (List.nodup_append.1 hnodup).2.2 i hi i List.mem_cons_self rfl
      rw [← List.singleton_append, ← List.append_assoc] at hnodup ⊢
      rw [fill, List.foldl_append, List.foldl_cons, List.foldl_nil]
      apply ih
      · intro k'
        have hold := hdone k'
        have hout : i ∉ (done.filter fun j => key j = k').reverse := fun hi =>
          hfresh (List.mem_filter.1 (List.mem_reverse.1 hi)).1
        rw [List.filter_append, List.reverse_append, push_next]
        by_cases hk : key i = k'
        · subst hk
          have hone : [i].filter (fun j => key j = key i) = [i] := by simp
          rw [hone, push_heads_self]
          refine ⟨rfl, ?_, hstop, ?_⟩
          · rw [List.length_set]
            exact hlt
          · rw [List.getD_eq_getElem?_getD, List.getElem?_set_self hlt, Option.getD_some]
            exact hold.set hout _
        · have hnone : [i].filter (fun j => key j = k') = [] := by simp [hk]
          rw [hnone, push_heads_of_ne _ hk]
          exact hold.set hout _
      · exact hnodup
      · intro j hj
        rw [push_next, List.length_set]
        exact hitems j (List.mem_cons_of_mem i hj)

/-- The chains of buckets that were filled from empty. -/
theorem linked_fill_empty {stop n : ℕ} (key : ℕ → κ) {items : List ℕ} (hnodup : items.Nodup)
    (hitems : ∀ i ∈ items, i < n ∧ i ≠ stop) (k : κ) :
    Linked stop ((empty stop n).fill key items).next (((empty stop n).fill key items).heads k)
      (items.filter fun i => key i = k).reverse := by
  have hempty : ∀ k, Linked stop (empty stop n : Buckets κ).next ((empty stop n).heads k)
      (([] : List ℕ).filter fun i => key i = k).reverse := fun _ => rfl
  have h := linked_fill key hempty hnodup (fun i hi => by
    rw [empty, List.length_replicate]
    exact hitems i hi) k
  exact h

end Buckets

end Zu.Lib
