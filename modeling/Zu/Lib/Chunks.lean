import Mathlib

/-!
# A list in chunks

`chunks n l` cuts a list into parts of `n` elements, the last one shorter. A
property of lists that holds of the empty list, and of a list when it holds of
what is left after its first chunk, holds of every list.
-/

namespace Zu.Lib

variable {α : Type*}

def chunksFrom (n : ℕ) : ℕ → List α → List (List α)
  | 0, _ => []
  | fuel + 1, l => if l.isEmpty then [] else l.take n :: chunksFrom n fuel (l.drop n)

/-- Parts of `n` elements, the last one shorter. -/
def chunks (n : ℕ) (l : List α) : List (List α) := chunksFrom n l.length l

@[simp] theorem chunks_nil (n : ℕ) : chunks n ([] : List α) = [] := rfl

theorem chunksFrom_fuel {n : ℕ} (hn : 0 < n) {fuel fuel' : ℕ} {l : List α}
    (h : l.length ≤ fuel) (h' : l.length ≤ fuel') :
    chunksFrom n fuel l = chunksFrom n fuel' l := by
  induction fuel generalizing fuel' l with
  | zero =>
      have hl : l = [] := List.eq_nil_of_length_eq_zero (Nat.le_zero.1 h)
      subst hl
      cases fuel' <;> rfl
  | succ fuel ih =>
      cases l with
      | nil => cases fuel' <;> rfl
      | cons a l =>
          cases fuel' with
          | zero => exact absurd h' (Nat.not_succ_le_zero _)
          | succ fuel' =>
              have hdrop : ((a :: l).drop n).length ≤ l.length := by
                rw [List.length_drop, List.length_cons]
                omega
              rw [List.length_cons] at h h'
              change (a :: l).take n :: chunksFrom n fuel ((a :: l).drop n) =
                (a :: l).take n :: chunksFrom n fuel' ((a :: l).drop n)
              rw [ih (hdrop.trans (Nat.le_of_succ_le_succ h))
                (hdrop.trans (Nat.le_of_succ_le_succ h'))]

theorem chunks_of_ne_nil {n : ℕ} (hn : 0 < n) {l : List α} (hl : l ≠ []) :
    chunks n l = l.take n :: chunks n (l.drop n) := by
  cases l with
  | nil => exact absurd rfl hl
  | cons a l =>
      have hdrop : ((a :: l).drop n).length ≤ l.length := by
        rw [List.length_drop, List.length_cons]
        omega
      change (a :: l).take n :: chunksFrom n l.length ((a :: l).drop n) = _
      rw [chunksFrom_fuel hn hdrop le_rfl]
      rfl

theorem chunks_induction {n : ℕ} (hn : 0 < n) {motive : List α → Prop}
    (nil : motive []) (step : ∀ l, l ≠ [] → motive (l.drop n) → motive l) (l : List α) :
    motive l := by
  induction hlen : l.length using Nat.strong_induction_on generalizing l with
  | _ k ih =>
      by_cases hl : l = []
      · rw [hl]
        exact nil
      · have hpos := List.length_pos_of_ne_nil hl
        have hlt : (l.drop n).length < k := by
          rw [List.length_drop]
          omega
        exact step l hl (ih _ hlt _ rfl)

theorem flatten_chunks {n : ℕ} (hn : 0 < n) (l : List α) : (chunks n l).flatten = l := by
  induction l using chunks_induction hn with
  | nil => rfl
  | step l hl ih => rw [chunks_of_ne_nil hn hl, List.flatten_cons, ih, List.take_append_drop]

theorem ne_nil_of_mem_chunks {n : ℕ} (hn : 0 < n) {l part : List α}
    (h : part ∈ chunks n l) : part ≠ [] := by
  induction l using chunks_induction hn with
  | nil => exact absurd h List.not_mem_nil
  | step l hl ih =>
      rw [chunks_of_ne_nil hn hl] at h
      cases List.mem_cons.1 h with
      | inl h =>
          rw [h]
          intro hnil
          have hzero := congrArg List.length hnil
          have hpos := List.length_pos_of_ne_nil hl
          rw [List.length_take, List.length_nil] at hzero
          omega
      | inr h => exact ih h

theorem length_le_of_mem_chunks {n : ℕ} (hn : 0 < n) {l part : List α}
    (h : part ∈ chunks n l) : part.length ≤ n := by
  induction l using chunks_induction hn with
  | nil => exact absurd h List.not_mem_nil
  | step l hl ih =>
      rw [chunks_of_ne_nil hn hl] at h
      cases List.mem_cons.1 h with
      | inl h => exact h ▸ List.length_take_le n l
      | inr h => exact ih h

theorem mem_of_mem_chunks {n : ℕ} (hn : 0 < n) {l part : List α} {a : α}
    (h : part ∈ chunks n l) (ha : a ∈ part) : a ∈ l := by
  rw [← flatten_chunks hn l]
  exact List.mem_flatten.2 ⟨part, h, ha⟩

theorem length_chunks {n : ℕ} (hn : 0 < n) (l : List α) :
    (chunks n l).length = (l.length + n - 1) / n := by
  induction l using chunks_induction hn with
  | nil =>
      rw [chunks_nil, List.length_nil, List.length_nil, Nat.zero_add]
      exact (Nat.div_eq_of_lt (Nat.sub_lt hn Nat.one_pos)).symm
  | step l hl ih =>
      have hpos := List.length_pos_of_ne_nil hl
      rw [chunks_of_ne_nil hn hl, List.length_cons, ih, List.length_drop]
      by_cases hle : l.length ≤ n
      · have hzero : l.length - n + n - 1 = n - 1 := by omega
        have hone : l.length + n - 1 = (l.length - 1) + n := by omega
        rw [hzero, hone, Nat.add_div_right _ hn, Nat.div_eq_of_lt (Nat.sub_lt hn Nat.one_pos),
          Nat.div_eq_of_lt (show l.length - 1 < n by omega)]
      · have hstep : l.length + n - 1 = (l.length - n + n - 1) + n := by omega
        rw [hstep, Nat.add_div_right _ hn]

theorem chunks_append {n : ℕ} (hn : 0 < n) {l : List α} (l' : List α) (h : l.length = n) :
    chunks n (l ++ l') = l :: chunks n l' := by
  have hne : l ++ l' ≠ [] := by
    intro hnil
    rw [(List.append_eq_nil_iff.1 hnil).1, List.length_nil] at h
    exact hn.ne h
  rw [chunks_of_ne_nil hn hne, List.take_left' h, List.drop_left' h]

/-- Parts that are all full come back. -/
theorem chunks_flatten {n : ℕ} (hn : 0 < n) {parts : List (List α)}
    (h : ∀ p ∈ parts, p.length = n) : chunks n parts.flatten = parts := by
  induction parts with
  | nil => rfl
  | cons p parts ih =>
      rw [List.flatten_cons, chunks_append hn _ (h p List.mem_cons_self),
        ih fun q hq => h q (List.mem_cons_of_mem _ hq)]

theorem getElem?_chunks {n : ℕ} (hn : 0 < n) (l : List α) (i : ℕ) :
    (chunks n l)[i]? = if i * n < l.length then some ((l.drop (i * n)).take n) else none := by
  induction i generalizing l with
  | zero =>
      cases l with
      | nil => rfl
      | cons a l =>
          rw [chunks_of_ne_nil hn (List.cons_ne_nil a l)]
          simp
  | succ i ih =>
      by_cases hl : l = []
      · subst hl
        simp
      · have hmul : (i + 1) * n = n + i * n := by ring
        rw [chunks_of_ne_nil hn hl, List.getElem?_cons_succ, ih, List.drop_drop, hmul,
          List.length_drop]
        congr 1
        exact propext (by omega)

/-- The chunks of a function on as many indices as fill them. -/
theorem chunks_map_range {n : ℕ} (hn : 0 < n) (m : ℕ) (f : ℕ → α) :
    chunks n ((List.range (n * m)).map f) =
      (List.range m).map fun c => (List.range n).map fun j => f (n * c + j) := by
  have hflatten : (List.range (n * m)).map f =
      ((List.range m).map fun c => (List.range n).map fun j => f (n * c + j)).flatten := by
    induction m with
    | zero => rfl
    | succ m ih =>
        rw [Nat.mul_succ, List.range_add, List.map_append, ih, List.range_succ, List.map_append,
          List.flatten_append, List.map_map, List.map_singleton, List.flatten_singleton]
        rfl
  rw [hflatten]
  apply chunks_flatten hn
  intro part hpart
  obtain ⟨c, -, rfl⟩ := List.mem_map.1 hpart
  rw [List.length_map, List.length_range]

/-- `as_chunks`: the parts of `n` elements, without what is left over. -/
def asChunks (n : ℕ) (l : List α) : List (List α) := chunks n (l.take (l.length / n * n))

theorem asChunks_of_dvd {n : ℕ} {l : List α} (h : n ∣ l.length) : asChunks n l = chunks n l := by
  rw [asChunks, Nat.div_mul_cancel h, List.take_length]

theorem asChunks_flatMap {β : Type*} {n : ℕ} (hn : 0 < n) {enc : β → List α} {bs : List β}
    (h : ∀ b ∈ bs, (enc b).length = n) : asChunks n (bs.flatMap enc) = bs.map enc := by
  have hparts : ∀ p ∈ bs.map enc, p.length = n := by
    intro p hp
    obtain ⟨b, hb, rfl⟩ := List.mem_map.1 hp
    exact h b hb
  have hdvd : n ∣ (bs.map enc).flatten.length := by
    rw [← List.flatMap_def]
    induction bs with
    | nil => exact Nat.dvd_zero n
    | cons b bs ih =>
        have hrest := ih (fun c hc => h c (List.mem_cons_of_mem b hc))
          fun p hp => hparts p (List.mem_cons_of_mem _ hp)
        rw [List.flatMap_cons, List.length_append, h b List.mem_cons_self]
        exact Nat.dvd_add (Nat.dvd_refl n) hrest
  rw [List.flatMap_def, asChunks_of_dvd hdvd, chunks_flatten hn hparts]

theorem length_of_mem_asChunks {n : ℕ} (hn : 0 < n) {l part : List α}
    (h : part ∈ asChunks n l) : part.length = n := by
  obtain ⟨i, hi⟩ := List.mem_iff_getElem?.1 h
  rw [asChunks, getElem?_chunks hn] at hi
  split at hi
  case isTrue hlt =>
    have hlen : (l.take (l.length / n * n)).length = l.length / n * n := by
      rw [List.length_take, Nat.min_eq_left (Nat.div_mul_le_self _ _)]
    rw [hlen] at hlt
    have hstep : (i + 1) * n ≤ l.length / n * n :=
      Nat.mul_le_mul_right n (Nat.succ_le_of_lt (Nat.lt_of_mul_lt_mul_right hlt))
    rw [← Option.some.inj hi, List.length_take, List.length_drop, hlen]
    rw [Nat.add_mul, Nat.one_mul] at hstep
    omega
  case isFalse => cases hi

end Zu.Lib
