import Mathlib

/-!
# Parts of one length

A list kept in parts of the same length: where an element is, and what changing one in
its part changes. A search from the end finds the last element there is, in the last
part that has one.
-/

namespace Zu.Lib

variable {α : Type*}

/-- Where the last element with `p` is: `Iterator::rposition`. -/
def lastIdx (p : α → Bool) : List α → Option ℕ
  | [] => none
  | a :: l =>
      match lastIdx p l with
      | some i => some (i + 1)
      | none => if p a then some 0 else none

theorem lastIdx_append (p : α → Bool) (l m : List α) :
    lastIdx p (l ++ m) = ((lastIdx p m).map (l.length + ·)).or (lastIdx p l) := by
  induction l with
  | nil => simp [lastIdx]
  | cons a l ih =>
      rw [List.cons_append, lastIdx, ih, lastIdx]
      cases lastIdx p m with
      | none => simp
      | some i => simp [Nat.add_right_comm]

theorem lastIdx_concat (p : α → Bool) (l : List α) (a : α) :
    lastIdx p (l ++ [a]) = if p a then some l.length else lastIdx p l := by
  rw [lastIdx_append, lastIdx, lastIdx]
  cases p a <;> rfl

/-- An element of full parts laid end to end. -/
theorem getElem?_flatten_full {n : ℕ} (hn : 0 < n) {parts : List (List α)}
    (hfull : ∀ part ∈ parts, part.length = n) (i : ℕ) :
    parts.flatten[i]? = parts[i / n]?.bind fun part => part[i % n]? := by
  induction parts generalizing i with
  | nil => rfl
  | cons part parts ih =>
      have hlen := hfull part List.mem_cons_self
      rw [List.flatten_cons]
      by_cases hi : i < n
      · rw [List.getElem?_append_left (hlen.symm ▸ hi), Nat.div_eq_of_lt hi, Nat.mod_eq_of_lt hi]
        rfl
      · have hle : n ≤ i := Nat.le_of_not_lt hi
        have hdiv : i / n = (i - n) / n + 1 := by
          rw [Nat.div_eq_sub_div hn hle]
        have hmod : i % n = (i - n) % n := Nat.mod_eq_sub_mod hle
        rw [List.getElem?_append_right (hlen.symm ▸ hle), hlen, hdiv, hmod, List.getElem?_cons_succ,
          ih (fun part hpart => hfull part (List.mem_cons_of_mem _ hpart))]

theorem length_flatten_full {n : ℕ} {parts : List (List α)}
    (hfull : ∀ part ∈ parts, part.length = n) : parts.flatten.length = parts.length * n := by
  induction parts with
  | nil => simp
  | cons part parts ih =>
      rw [List.flatten_cons, List.length_append, hfull part List.mem_cons_self,
        ih (fun part hpart => hfull part (List.mem_cons_of_mem _ hpart)), List.length_cons,
        Nat.succ_mul, Nat.add_comm]

/-- Changing an element of a part changes it in what the parts are laid end to end. -/
theorem flatten_modify_full {n : ℕ} (hn : 0 < n) {parts : List (List α)}
    (hfull : ∀ part ∈ parts, part.length = n) (i : ℕ) (f : α → α) :
    (parts.modify (i / n) fun part => part.modify (i % n) f).flatten =
      parts.flatten.modify i f := by
  have hfull' : ∀ part ∈ parts.modify (i / n) fun part => part.modify (i % n) f,
      part.length = n := by
    intro part hpart
    obtain ⟨j, hj⟩ := List.getElem?_of_mem hpart
    rw [List.getElem?_modify] at hj
    obtain ⟨was, hwas, rfl⟩ := Option.map_eq_some_iff.1 hj
    have hlen := hfull was (List.mem_of_getElem? hwas)
    split
    · rw [List.length_modify, hlen]
    · exact hlen
  apply List.ext_getElem?
  intro j
  rw [getElem?_flatten_full hn hfull', List.getElem?_modify, List.getElem?_modify,
    getElem?_flatten_full hn hfull, Option.map_eq_map, Option.map_eq_map]
  have hij : i = j ↔ i / n = j / n ∧ i % n = j % n := by
    constructor
    · intro h
      rw [h]
      exact ⟨rfl, rfl⟩
    · rintro ⟨hdiv, hmod⟩
      rw [← Nat.div_add_mod i n, ← Nat.div_add_mod j n, hdiv, hmod]
  cases parts[j / n]? with
  | none => rfl
  | some part =>
      simp only [Option.map_some, Option.bind_some]
      by_cases hdiv : i / n = j / n
      · simp only [if_pos hdiv, List.getElem?_modify, Option.map_eq_map]
        by_cases hmod : i % n = j % n
        · simp only [if_pos hmod, if_pos (hij.2 ⟨hdiv, hmod⟩)]
        · simp only [if_neg hmod, if_neg fun h => hmod (hij.1 h).2]
      · simp only [if_neg hdiv, if_neg fun h => hdiv (hij.1 h).1, Option.map_id']

/-- A sum where one element is put in another's place. -/
theorem sum_map_set (f : α → ℕ) {l : List α} {i : ℕ} {a : α} (h : l[i]? = some a) (b : α) :
    ((l.set i b).map f).sum + f a = (l.map f).sum + f b := by
  induction l generalizing i with
  | nil => exact absurd h (by simp)
  | cons c l ih =>
      cases i with
      | zero =>
          have hca : c = a := by simpa using h
          rw [hca, List.set_cons_zero, List.map_cons, List.map_cons, List.sum_cons, List.sum_cons]
          ring
      | succ i =>
          have hl : l[i]? = some a := by simpa using h
          have hsum := ih hl
          rw [List.set_cons_succ, List.map_cons, List.map_cons, List.sum_cons, List.sum_cons]
          omega

end Zu.Lib
