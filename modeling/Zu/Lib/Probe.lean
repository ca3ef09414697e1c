import Mathlib

/-!
# Open addressing

A table of slots holds keys with counts, and a count of zero is an empty slot. A
key is looked for from the slot it hashes to, slot after slot, round the end. In a
table where every key is where its own search finds it, the search for a key that
is there ends at it, and the search for one that is not ends at an empty slot, if
there is any.
-/

namespace Zu.Lib

variable {κ : Type*} [DecidableEq κ]

/-- Slots, each a key and how often it was counted. -/
abbrev Slots (κ : Type*) := List (κ × ℕ)

/-- The first slot that is empty or holds the key, looking at `fuel` of them from `i`. -/
def probe (slots : Slots κ) (key : κ) : ℕ → ℕ → Option ℕ
  | 0, _ => none
  | fuel + 1, i =>
      match slots[i]? with
      | none => none
      | some (k, n) =>
          if n = 0 then some i
          else if k = key then some i
          else probe slots key fuel ((i + 1) % slots.length)

attribute [grind =] probe

def search (hash : κ → ℕ) (slots : Slots κ) (key : κ) : Option ℕ :=
  probe slots key slots.length (hash key % slots.length)

/-- Every key is where its search ends. -/
def Placed (hash : κ → ℕ) (slots : Slots κ) : Prop :=
  ∀ i k n, slots[i]? = some (k, n + 1) → search hash slots k = some i

/-- A slot where a search ended is empty or holds the key. -/
theorem probe_some {slots : Slots κ} {key : κ} {fuel i j : ℕ}
    (h : probe slots key fuel i = some j) :
    ∃ k n, slots[j]? = some (k, n) ∧ (n = 0 ∨ k = key) := by
  induction fuel generalizing i with
  | zero => exact nomatch h
  | succ fuel ih =>
      rw [probe] at h
      cases hslot : slots[i]? with
      | none =>
          rw [hslot] at h
          exact nomatch h
      | some e =>
          obtain ⟨k, n⟩ := e
          simp only [hslot] at h
          split_ifs at h with hn hk
          · cases h
            exact ⟨k, n, hslot, .inl hn⟩
          · cases h
            exact ⟨k, n, hslot, .inr hk⟩
          · exact ih h

/-- A search that fails met only other keys. -/
theorem probe_none {slots : Slots κ} {key : κ} {fuel i : ℕ} (hi : i < slots.length)
    (h : probe slots key fuel i = none) {d : ℕ} (hd : d < fuel) :
    ∃ k n, slots[(i + d) % slots.length]? = some (k, n) ∧ n ≠ 0 := by
  have hpos : 0 < slots.length := Nat.zero_lt_of_lt hi
  induction fuel generalizing i d with
  | zero => exact absurd hd (Nat.not_lt_zero d)
  | succ fuel ih =>
      rw [probe, List.getElem?_eq_getElem hi] at h
      simp only at h
      split_ifs at h with hn hk
      cases d with
      | zero =>
          rw [Nat.add_zero, Nat.mod_eq_of_lt hi]
          exact ⟨_, _, List.getElem?_eq_getElem hi, hn⟩
      | succ d =>
          have hnext := ih (Nat.mod_lt _ hpos) h (Nat.lt_of_succ_lt_succ hd)
          have hidx : ((i + 1) % slots.length + d) % slots.length =
              (i + (d + 1)) % slots.length := by
            rw [Nat.mod_add_mod, Nat.add_assoc, Nat.add_comm 1 d]
          rwa [hidx] at hnext

/-- With a slot left empty, every search ends. -/
theorem search_isSome (hash : κ → ℕ) {slots : Slots κ} {i : ℕ} {k : κ}
    (h : slots[i]? = some (k, 0)) (key : κ) : (search hash slots key).isSome := by
  obtain ⟨hi, -⟩ := List.getElem?_eq_some_iff.1 h
  have hpos : 0 < slots.length := Nat.zero_lt_of_lt hi
  have hstart : hash key % slots.length < slots.length := Nat.mod_lt _ hpos
  rw [Option.isSome_iff_ne_none]
  intro hnone
  -- the steps from the start to the empty slot, round the end
  have hsteps : (hash key % slots.length +
      (i + (slots.length - hash key % slots.length)) % slots.length) % slots.length = i := by
    rw [Nat.add_mod_mod]
    have hsum : hash key % slots.length + (i + (slots.length - hash key % slots.length)) =
        i + slots.length := by omega
    rw [hsum, Nat.add_mod_right, Nat.mod_eq_of_lt hi]
  obtain ⟨k', n, hslot, hn⟩ := probe_none hstart hnone (Nat.mod_lt
    (i + (slots.length - hash key % slots.length)) hpos)
  rw [hsteps, h] at hslot
  cases hslot
  exact hn rfl

/-- Writing a slot that a search does not stop at does not move it. -/
theorem probe_set_of_empty {slots : Slots κ} {key key' : κ} {fuel i j e : ℕ} {k : κ} {n : ℕ}
    (h : probe slots key fuel i = some j) (hj : slots[j]? = some (key, n + 1))
    (he : slots[e]? = some (k, 0)) :
    probe (slots.set e (key', 1)) key fuel i = some j := by
  induction fuel generalizing i with
  | zero => exact nomatch h
  | succ fuel ih =>
      have hne : e ≠ i := by
        rintro rfl
        rw [probe, he] at h
        simp only [if_true] at h
        cases h
        rw [he] at hj
        cases hj
      rw [probe] at h ⊢
      rw [List.getElem?_set_ne hne]
      cases hslot : slots[i]? with
      | none =>
          rw [hslot] at h
          exact nomatch h
      | some s =>
          obtain ⟨k', n'⟩ := s
          simp only [hslot] at h ⊢
          split_ifs at h ⊢ with hn hk
          · exact h
          · exact h
          · rw [List.length_set]
            exact ih h

/-- A key put where its search ended is found there. -/
theorem probe_set_self {slots : Slots κ} {key : κ} {fuel i j : ℕ} {n : ℕ}
    (h : probe slots key fuel i = some j) : probe (slots.set j (key, n)) key fuel i = some j := by
  obtain ⟨k, m, hj, -⟩ := probe_some h
  obtain ⟨hlt, -⟩ := List.getElem?_eq_some_iff.1 hj
  induction fuel generalizing i with
  | zero => exact nomatch h
  | succ fuel ih =>
      rw [probe] at h ⊢
      by_cases hne : j = i
      · subst hne
        rw [List.getElem?_set_self hlt]
        simp
      · rw [List.getElem?_set_ne hne]
        cases hslot : slots[i]? with
        | none =>
            rw [hslot] at h
            exact nomatch h
        | some s =>
            obtain ⟨k', n'⟩ := s
            simp only [hslot] at h ⊢
            split_ifs at h ⊢ with hn hk
            · exact h
            · exact h
            · rw [List.length_set]
              exact ih h

/-- Counting a key that is there moves no search. -/
theorem probe_set_count {slots : Slots κ} {key k : κ} {fuel i j n m : ℕ}
    (hj : slots[j]? = some (k, n + 1)) :
    probe (slots.set j (k, m + 1)) key fuel i = probe slots key fuel i := by
  obtain ⟨hlt, -⟩ := List.getElem?_eq_some_iff.1 hj
  induction fuel generalizing i with
  | zero => rfl
  | succ fuel ih =>
      rw [probe, probe, List.length_set]
      by_cases hne : j = i
      · subst hne
        rw [List.getElem?_set_self hlt, hj]
        simp only [Nat.succ_ne_zero, if_false, ih]
      · rw [List.getElem?_set_ne hne]
        simp only [ih]

section

variable {hash : κ → ℕ} {slots : Slots κ} (hplaced : Placed hash slots)

include hplaced

/-- Putting a new key where its search ends. -/
theorem Placed.insert {key : κ} {j : ℕ} {k : κ} (h : search hash slots key = some j)
    (hj : slots[j]? = some (k, 0)) : Placed hash (slots.set j (key, 1)) := by
  obtain ⟨hlt, -⟩ := List.getElem?_eq_some_iff.1 hj
  intro i k' n hi
  rw [search, List.length_set]
  by_cases hne : j = i
  · subst hne
    rw [List.getElem?_set_self hlt] at hi
    cases hi
    exact probe_set_self h
  · rw [List.getElem?_set_ne hne] at hi
    exact probe_set_of_empty (hplaced i k' n hi) hi hj

theorem Placed.count {key : κ} {j n : ℕ} (hj : slots[j]? = some (key, n + 1)) (m : ℕ) :
    Placed hash (slots.set j (key, m + 1)) := by
  obtain ⟨hlt, -⟩ := List.getElem?_eq_some_iff.1 hj
  intro i k' n' hi
  rw [search, List.length_set, probe_set_count hj]
  by_cases hne : j = i
  · subst hne
    rw [List.getElem?_set_self hlt] at hi
    cases hi
    exact hplaced j key n hj
  · rw [List.getElem?_set_ne hne] at hi
    exact hplaced i k' n' hi

end

end Zu.Lib
