import Mathlib

/-!
# Searching what is sorted

The search halves a window that keeps the last element that is not above the key,
as the library of the language does. Its documentation promises a position of the
key when there are several, and not which one: `binarySearch_some` is that promise.
`partitionPoint` finds where a predicate stops holding by the same halving.
-/

namespace Zu.Lib

variable {α : Type*}

/-- Halves the window of `size` elements from `base`, down to one element. -/
def narrow (above : ℕ → Bool) : ℕ → ℕ → ℕ → ℕ
  | 0, _, base => base
  | fuel + 1, size, base =>
      if size ≤ 1 then base
      else
        let half := size / 2
        narrow above fuel (size - half) (if above (base + half) then base else base + half)

/-- Whether an element of a list is there and satisfies `p`. -/
def anyAt (p : α → Bool) (l : List α) (i : ℕ) : Bool := (l[i]?).any p

/-- `binary_search`: a position of `key` in a sorted list. -/
def binarySearch [DecidableEq α] (le : α → α → Bool) (l : List α) (key : α) : Option ℕ :=
  if l = [] then none
  else
    let base := narrow (anyAt (fun x => !le x key) l) l.length l.length 0
    if l[base]? = some key then some base else none

/-- `partition_point`: where `p` stops holding in a list it holds at the front of. -/
def partitionPoint (p : α → Bool) (l : List α) : ℕ :=
  if l = [] then 0
  else
    let base := narrow (anyAt (fun x => !p x) l) l.length l.length 0
    if anyAt p l base then base + 1 else base

/-- The window ends on the last element that is not above, when there is one in it. -/
theorem narrow_eq {above : ℕ → Bool} {target fuel size base : ℕ} (hfuel : size ≤ fuel)
    (hle : base ≤ target) (hlt : target < base + size)
    (habove : ∀ i, base < i → i < base + size → (above i = true ↔ target < i)) :
    narrow above fuel size base = target := by
  induction fuel generalizing size base with
  | zero => omega
  | succ fuel ih =>
      rw [narrow]
      by_cases hone : size ≤ 1
      · rw [if_pos hone]
        omega
      · have hmid := habove (base + size / 2) (by omega) (by omega)
        rw [if_neg hone]
        simp only
        by_cases h : above (base + size / 2) = true
        · have hbelow := hmid.1 h
          rw [if_pos h]
          apply ih (by omega) hle (by omega)
          intro i hi hi'
          exact habove i hi (by omega)
        · have hfrom : base + size / 2 ≤ target := not_lt.1 fun hlt => h (hmid.2 hlt)
          rw [if_neg h]
          apply ih (by omega) hfrom (by omega)
          intro i hi hi'
          exact habove i (by omega) (by omega)

/-- In a list that `p` holds at the front of, the window ends at the last element
it holds of. -/
theorem narrow_partition {p : α → Bool} {a b : List α} (ha : ∀ x ∈ a, p x = true)
    (hb : ∀ x ∈ b, p x = false) (hne : a ++ b ≠ []) :
    narrow (anyAt (fun x => !p x) (a ++ b)) (a ++ b).length (a ++ b).length 0 = a.length - 1 := by
  have hpos := List.length_pos_of_ne_nil hne
  rw [List.length_append] at hpos ⊢
  apply narrow_eq le_rfl (Nat.zero_le _) (by omega)
  intro i hi hlt
  rw [Nat.zero_add] at hlt
  by_cases hin : i < a.length
  · have hmem : a[i] ∈ a := List.getElem_mem hin
    rw [anyAt, List.getElem?_append_left hin, List.getElem?_eq_getElem hin, Option.any_some,
      ha _ hmem]
    simp
    omega
  · have hidx : i - a.length < b.length := by omega
    have hmem : b[i - a.length] ∈ b := List.getElem_mem hidx
    rw [anyAt, List.getElem?_append_right (not_lt.1 hin), List.getElem?_eq_getElem hidx,
      Option.any_some, hb _ hmem]
    simp
    omega

/-- The point is where the second part begins. -/
theorem partitionPoint_append {p : α → Bool} {a b : List α} (ha : ∀ x ∈ a, p x = true)
    (hb : ∀ x ∈ b, p x = false) : partitionPoint p (a ++ b) = a.length := by
  by_cases hne : a ++ b = []
  · rw [partitionPoint, if_pos hne, (List.append_eq_nil_iff.1 hne).1]
    rfl
  · rw [partitionPoint, if_neg hne, narrow_partition ha hb hne]
    cases a with
    | nil =>
        rw [List.nil_append] at hne ⊢
        obtain ⟨x, b', rfl⟩ := List.exists_cons_of_ne_nil hne
        have hx := hb x List.mem_cons_self
        simp [anyAt, hx]
    | cons x a =>
        have hidx : (x :: a).length - 1 < (x :: a).length := by simp
        have hp : anyAt p (x :: a ++ b) ((x :: a).length - 1) = true := by
          rw [anyAt, List.getElem?_append_left hidx, List.getElem?_eq_getElem hidx,
            Option.any_some]
          exact ha _ (List.getElem_mem hidx)
        rw [if_pos hp]
        simp

/-- What `p` holds of comes first in a list it is antitone along. -/
theorem takeWhile_dropWhile_split {p : α → Bool} {l : List α}
    (h : l.Pairwise fun x y => p y = true → p x = true) :
    ∀ x ∈ l.dropWhile p, p x = false := by
  induction l with
  | nil => exact fun x hx => absurd hx List.not_mem_nil
  | cons y l ih =>
      rw [List.pairwise_cons] at h
      rw [List.dropWhile_cons]
      split
      · exact ih h.2
      · rename_i hy
        intro x hx
        cases List.mem_cons.1 hx with
        | inl hx => exact hx ▸ Bool.eq_false_iff.2 hy
        | inr hx => exact Bool.eq_false_iff.2 fun hp => hy (h.1 x hx hp)

theorem mem_takeWhile_true {p : α → Bool} {l : List α} : ∀ x ∈ l.takeWhile p, p x = true :=
  fun _ hx => List.mem_takeWhile_imp hx

/-- The point cuts the list in two. -/
theorem partitionPoint_eq {p : α → Bool} {l : List α}
    (h : l.Pairwise fun x y => p y = true → p x = true) :
    partitionPoint p l = (l.takeWhile p).length := by
  conv_lhs => rw [← List.takeWhile_append_dropWhile (p := p) (l := l)]
  exact partitionPoint_append mem_takeWhile_true (takeWhile_dropWhile_split h)

section

variable [DecidableEq α] {le : α → α → Bool} {l : List α} {key : α}

theorem binarySearch_some {i : ℕ} (h : binarySearch le l key = some i) : l[i]? = some key := by
  rw [binarySearch] at h
  split at h
  · exact nomatch h
  · simp only at h
    split at h
    · rename_i hbase
      cases h
      exact hbase
    · exact nomatch h

theorem binarySearch_isSome (htrans : ∀ a b c, le a b = true → le b c = true → le a c = true)
    (hanti : ∀ a b, le a b = true → le b a = true → a = b) (hrefl : ∀ a, le a a = true)
    (hsorted : l.Pairwise fun x y => le x y = true) (hkey : key ∈ l) :
    (binarySearch le l key).isSome := by
  have hpair : l.Pairwise fun x y => le y key = true → le x key = true :=
    hsorted.imp fun hxy hy => htrans _ _ _ hxy hy
  have hfront := @mem_takeWhile_true _ (fun x => le x key) l
  have hback := takeWhile_dropWhile_split hpair
  have hsplit := @List.takeWhile_append_dropWhile _ (fun x => le x key) l
  have hne : l ≠ [] := List.ne_nil_of_mem hkey
  have hnarrow := narrow_partition hfront hback (by rwa [hsplit])
  rw [hsplit] at hnarrow
  have hmem : key ∈ l.takeWhile fun x => le x key := by
    rw [← hsplit] at hkey
    cases List.mem_append.1 hkey with
    | inl hmem => exact hmem
    | inr hmem =>
        have hnot := hback key hmem
        rw [hrefl] at hnot
        exact absurd hnot Bool.noConfusion
  -- the last element not above the key is the key
  have hfne : (l.takeWhile fun x => le x key) ≠ [] := List.ne_nil_of_mem hmem
  have hlast : (l.takeWhile fun x => le x key).getLast hfne = key := by
    apply hanti
    · exact hfront _ (List.getLast_mem hfne)
    · have hpw : (l.takeWhile fun x => le x key).Pairwise fun x y => le x y = true :=
        hsorted.sublist (List.takeWhile_sublist _)
      rw [← List.dropLast_append_getLast hfne, List.pairwise_append] at hpw
      rw [← List.dropLast_append_getLast hfne] at hmem
      cases List.mem_append.1 hmem with
      | inl hmem => exact hpw.2.2 key hmem _ (List.mem_singleton_self _)
      | inr hmem =>
          rw [List.mem_singleton] at hmem
          exact hmem ▸ hrefl key
  have hget : l[(l.takeWhile fun x => le x key).length - 1]? = some key := by
    have hlen := List.length_pos_of_ne_nil hfne
    have hin : (l.takeWhile fun x => le x key).length - 1 <
        (l.takeWhile fun x => le x key).length := Nat.sub_lt hlen Nat.one_pos
    have happ := @List.getElem?_append_left _ _ (l.dropWhile fun x => le x key) _ hin
    rw [hsplit, List.getElem?_eq_getElem hin, ← List.getLast_eq_getElem hfne, hlast] at happ
    exact happ
  rw [binarySearch, if_neg hne]
  simp only
  rw [hnarrow, if_pos hget]
  rfl

end

end Zu.Lib
