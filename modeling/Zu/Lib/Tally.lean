import Zu.Lib.Comparing

/-!
# Tables kept by a comparison

A table holds its keys ascending and is looked through from the least of them on, so that a key
is found by the one that compares equal to it. Where the comparison is an order on the keys that
meet, a table is a function of what a key compares equal to, and rows that are read against one
and change it are counted class by class.
-/

namespace Zu.Lib

variable {κ ν : Type} (cmp : κ → κ → Ordering)

/-- What a table holds under a key. -/
def seek (k : κ) : List (κ × ν) → Option ν
  | [] => none
  | (key, held) :: rest =>
      match cmp k key with
      | .lt => none
      | .eq => some held
      | .gt => seek k rest

/-- Puts a value under a key. A key that is there already stays the one it was. -/
def put (k : κ) (v : ν) : List (κ × ν) → List (κ × ν)
  | [] => [(k, v)]
  | (key, held) :: rest =>
      match cmp k key with
      | .lt => (k, v) :: (key, held) :: rest
      | .eq => (key, v) :: rest
      | .gt => (key, held) :: put k v rest

/-- How many rows compare equal to one. -/
def times (k : κ) (rows : List κ) : ℕ := rows.countP fun row => cmp k row = .eq

/-- What one row makes of a table, which stays as it was where there is nothing to put. -/
def spend (act : Option ν → Option ν) (table : List (κ × ν)) (row : κ) : List (κ × ν) :=
  match act (seek cmp row table) with
  | none => table
  | some v => put cmp row v table

/-- The rows that are kept as each is read against a table and changes it. -/
def sift (keep : Option ν → Bool) (act : Option ν → Option ν) :
    List (κ × ν) → List κ → List κ
  | _, [] => []
  | table, row :: rows =>
      let rest := sift keep act (spend cmp act table row) rows
      if keep (seek cmp row table) then row :: rest else rest

/-- What becomes of a value that is changed as often as rows compare equal to its key. -/
def after (act : Option ν → Option ν) (held : Option ν) : Option ν := (act held).or held

/-- How many of `n` rows that compare equal are kept. -/
def kept (keep : Option ν → Bool) (act : Option ν → Option ν) : Option ν → ℕ → ℕ
  | _, 0 => 0
  | held, n + 1 => (if keep held then 1 else 0) + kept keep act (after act held) n

/-- A comparison that is an order on some keys. -/
structure OrderOn (keys : Set κ) : Prop where
  swap : ∀ a ∈ keys, ∀ b ∈ keys, cmp b a = (cmp a b).swap
  follows : ∀ a ∈ keys, ∀ b ∈ keys, ∀ c ∈ keys, Follows cmp a b c

section

variable {cmp}

theorem sift_subset {keep : Option ν → Bool} {act : Option ν → Option ν}
    (table : List (κ × ν)) (rows : List κ) : sift cmp keep act table rows ⊆ rows := by
  induction rows generalizing table with
  | nil => simp [sift]
  | cons row rows ih =>
      rw [sift]
      split
      · exact List.cons_subset_cons row (ih _)
      · exact List.subset_cons_of_subset row (ih _)

@[simp]
theorem times_nil (k : κ) : times cmp k [] = 0 := rfl

theorem times_cons (k row : κ) (rows : List κ) :
    times cmp k (row :: rows) = (if cmp k row = .eq then 1 else 0) + times cmp k rows := by
  rw [times, times, List.countP_cons, Nat.add_comm]
  simp

theorem times_append (k : κ) (xs ys : List κ) :
    times cmp k (xs ++ ys) = times cmp k xs + times cmp k ys := List.countP_append

namespace OrderOn

variable {keys : Set κ}

/-- A comparison that answers from either side is an order where it is transitive. -/
theorem of_trans (hswap : ∀ a ∈ keys, ∀ b ∈ keys, cmp b a = (cmp a b).swap)
    (htrans : ∀ a ∈ keys, ∀ b ∈ keys, ∀ c ∈ keys, cmp a b ≠ .gt → cmp b c ≠ .gt →
      cmp a c ≠ .gt) : OrderOn cmp keys where
  swap := hswap
  follows a ha b hb c hc hab hbc := by
    have hac := htrans a ha b hb c hc hab hbc
    have hbca := htrans b hb c hc a ha hbc
    have hcab := htrans c hc a ha b hb
    have hcba := htrans c hc b hb a ha
    rw [hswap a ha c hc, hswap a ha b hb] at hbca
    rw [hswap a ha c hc, hswap b hb c hc] at hcab
    rw [hswap a ha b hb, hswap b hb c hc, hswap a ha c hc] at hcba
    clear hswap htrans
    generalize cmp a b = ab at *
    generalize cmp b c = bc at *
    generalize cmp a c = ac at *
    cases ab <;> cases bc <;> cases ac <;> simp_all

theorem eq_symm (h : OrderOn cmp keys) {a b : κ} (ha : a ∈ keys) (hb : b ∈ keys)
    (hab : cmp a b = .eq) : cmp b a = .eq := by
  rw [h.swap a ha b hb, hab]
  rfl

theorem lt_of_gt (h : OrderOn cmp keys) {a b : κ} (ha : a ∈ keys) (hb : b ∈ keys)
    (hab : cmp a b = .gt) : cmp b a = .lt := by
  rw [h.swap a ha b hb, hab]
  rfl

theorem gt_of_lt (h : OrderOn cmp keys) {a b : κ} (ha : a ∈ keys) (hb : b ∈ keys)
    (hab : cmp a b = .lt) : cmp b a = .gt := by
  rw [h.swap a ha b hb, hab]
  rfl

theorem self (h : OrderOn cmp keys) {a : κ} (ha : a ∈ keys) : cmp a a = .eq := by
  have hswap := h.swap a ha a ha
  cases hcmp : cmp a a <;> simp_all

theorem lt_lt (h : OrderOn cmp keys) {a b c : κ} (ha : a ∈ keys) (hb : b ∈ keys) (hc : c ∈ keys)
    (hab : cmp a b = .lt) (hbc : cmp b c ≠ .gt) : cmp a c = .lt := by
  rw [h.follows a ha b hb c hc (by simp [hab]) hbc, hab]
  rfl

theorem eq_left (h : OrderOn cmp keys) {a b c : κ} (ha : a ∈ keys) (hb : b ∈ keys) (hc : c ∈ keys)
    (hab : cmp a b = .eq) : cmp a c = cmp b c := by
  cases hbc : cmp b c with
  | lt => rw [h.follows a ha b hb c hc (by simp [hab]) (by simp [hbc]), hab, hbc]; rfl
  | eq => rw [h.follows a ha b hb c hc (by simp [hab]) (by simp [hbc]), hab, hbc]; rfl
  | gt =>
      have hcb := h.lt_of_gt hb hc hbc
      have hba := h.eq_symm ha hb hab
      exact h.gt_of_lt hc ha (h.lt_lt hc hb ha hcb (by simp [hba]))

theorem eq_right (h : OrderOn cmp keys) {a b c : κ} (ha : a ∈ keys) (hb : b ∈ keys)
    (hc : c ∈ keys) (hbc : cmp b c = .eq) : cmp a b = cmp a c := by
  rw [h.swap b hb a ha, h.swap c hc a ha, h.eq_left hb hc ha hbc]

end OrderOn

/-! ### A table as a function -/

theorem mem_put {p : κ × ν} {k : κ} {v : ν} {table : List (κ × ν)} (h : p ∈ put cmp k v table) :
    p.1 = k ∨ p.1 ∈ table.map Prod.fst := by
  induction table with
  | nil => simp_all [put]
  | cons entry rest ih =>
      rw [put] at h
      split at h
      · rcases List.mem_cons.1 h with rfl | h
        · exact Or.inl rfl
        · exact Or.inr (List.mem_map_of_mem h)
      · rcases List.mem_cons.1 h with rfl | h
        · simp
        · simp [List.mem_map_of_mem h]
      · rcases List.mem_cons.1 h with rfl | h
        · simp
        · have := ih h
          simp only [List.map_cons, List.mem_cons]
          tauto

variable {keys : Set κ}

def Among (keys : Set κ) (table : List (κ × ν)) : Prop := ∀ p ∈ table, p.1 ∈ keys

theorem among_nil : Among keys ([] : List (κ × ν)) := by simp [Among]

theorem Among.put {table : List (κ × ν)} (h : Among keys table) {k : κ} (hk : k ∈ keys) (v : ν) :
    Among keys (put cmp k v table) := by
  intro p hp
  rcases mem_put hp with h' | h'
  · exact h' ▸ hk
  · obtain ⟨q, hq, h'⟩ := List.mem_map.1 h'
    exact h' ▸ h q hq

theorem Among.spend {table : List (κ × ν)} (h : Among keys table) {row : κ} (hrow : row ∈ keys)
    (act : Option ν → Option ν) : Among keys (spend cmp act table row) := by
  rw [Lib.spend]
  split
  · exact h
  · exact h.put hrow _

theorem seek_put (h : OrderOn cmp keys) {table : List (κ × ν)} (htable : Among keys table)
    {k k' : κ} (hk : k ∈ keys) (hk' : k' ∈ keys) (v : ν) :
    seek cmp k (put cmp k' v table) = if cmp k k' = .eq then some v else seek cmp k table := by
  induction table with
  | nil =>
      simp only [put, seek]
      cases cmp k k' <;> rfl
  | cons entry rest ih =>
      obtain ⟨key, held⟩ := entry
      have hkey : key ∈ keys := htable _ List.mem_cons_self
      have hrest := ih fun p hp => htable p (List.mem_cons_of_mem _ hp)
      cases hput : cmp k' key with
      | lt =>
          simp only [put, hput, seek]
          cases hcmp : cmp k k' with
          | lt => simp [h.lt_lt hk hk' hkey hcmp (by simp [hput])]
          | eq => simp
          | gt => simp
      | eq =>
          simp only [put, hput, seek, h.eq_right hk hk' hkey hput]
          cases cmp k key <;> simp
      | gt =>
          have hlt := h.lt_of_gt hk' hkey hput
          simp only [put, hput, seek]
          cases hcmp : cmp k key with
          | lt => simp [h.lt_lt hk hkey hk' hcmp (by simp [hlt])]
          | eq => simp [h.eq_left hk hkey hk' hcmp, hlt]
          | gt => exact hrest

/-- Keys that compare equal find the same. -/
theorem seek_congr (h : OrderOn cmp keys) {table : List (κ × ν)} (htable : Among keys table)
    {k k' : κ} (hk : k ∈ keys) (hk' : k' ∈ keys) (heq : cmp k k' = .eq) :
    seek cmp k table = seek cmp k' table := by
  induction table with
  | nil => rfl
  | cons entry rest ih =>
      have hkey : entry.1 ∈ keys := htable _ List.mem_cons_self
      rw [seek, seek, h.eq_left hk hk' hkey heq,
        ih fun p hp => htable p (List.mem_cons_of_mem _ hp)]

theorem seek_spend (h : OrderOn cmp keys) {table : List (κ × ν)} (htable : Among keys table)
    {k row : κ} (hk : k ∈ keys) (hrow : row ∈ keys) (act : Option ν → Option ν) :
    seek cmp k (spend cmp act table row) =
      if cmp k row = .eq then after act (seek cmp k table) else seek cmp k table := by
  rw [spend]
  split_ifs with heq
  · rw [← seek_congr h htable hk hrow heq]
    cases hact : act (seek cmp k table) with
    | none => simp [after, hact]
    | some v => simp [after, hact, seek_put h htable hk hrow, heq]
  · cases act (seek cmp row table) with
    | none => rfl
    | some v => simp [seek_put h htable hk hrow, heq]

theorem Among.foldl {rows : List κ} (hrows : ∀ row ∈ rows, row ∈ keys)
    (act : Option ν → Option ν) {table : List (κ × ν)} (h : Among keys table) :
    Among keys (rows.foldl (Lib.spend cmp act) table) := by
  induction rows generalizing table with
  | nil => exact h
  | cons row rows ih =>
      exact ih (fun r hr => hrows r (List.mem_cons_of_mem _ hr))
        (h.spend (hrows row List.mem_cons_self) act)

/-- A table that rows have been read into. -/
theorem seek_foldl (h : OrderOn cmp keys) {rows : List κ} (hrows : ∀ row ∈ rows, row ∈ keys)
    {table : List (κ × ν)} (htable : Among keys table) {k : κ} (hk : k ∈ keys)
    (act : Option ν → Option ν) :
    seek cmp k (rows.foldl (spend cmp act) table) =
      (after act)^[times cmp k rows] (seek cmp k table) := by
  induction rows generalizing table with
  | nil => rfl
  | cons row rows ih =>
      have hrow := hrows row List.mem_cons_self
      rw [List.foldl_cons, ih (fun r hr => hrows r (List.mem_cons_of_mem _ hr))
        (htable.spend hrow act), seek_spend h htable hk hrow, times_cons]
      split_ifs
      · rw [Nat.add_comm, Function.iterate_succ_apply]
      · rw [Nat.zero_add]

/-- The rows that are kept are counted class by class. -/
theorem times_sift (h : OrderOn cmp keys) {rows : List κ} (hrows : ∀ row ∈ rows, row ∈ keys)
    {table : List (κ × ν)} (htable : Among keys table) {k : κ} (hk : k ∈ keys)
    (keep : Option ν → Bool) (act : Option ν → Option ν) :
    times cmp k (sift cmp keep act table rows) =
      kept keep act (seek cmp k table) (times cmp k rows) := by
  induction rows generalizing table with
  | nil => simp [sift, kept]
  | cons row rows ih =>
      have hrow := hrows row List.mem_cons_self
      have hspend : Among keys (spend cmp act table row) := htable.spend hrow act
      have hrest := ih (fun r hr => hrows r (List.mem_cons_of_mem _ hr)) hspend
      rw [seek_spend h htable hk hrow] at hrest
      rw [sift, times_cons]
      by_cases heq : cmp k row = .eq
      · rw [if_pos heq] at hrest
        rw [if_pos heq, Nat.add_comm 1, kept, ← seek_congr h htable hk hrow heq]
        split_ifs
        · rw [times_cons, if_pos heq, hrest]
        · rw [hrest, Nat.zero_add]
      · rw [if_neg heq] at hrest
        rw [if_neg heq, Nat.zero_add]
        split_ifs
        · rw [times_cons, if_neg heq, Nat.zero_add, hrest]
        · exact hrest

end

end Zu.Lib
