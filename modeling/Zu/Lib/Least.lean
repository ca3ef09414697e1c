import Mathlib

/-!
# The least few

The rank of a number in a set is how many of the set are less, and the least `k` of a set are
those of a rank less than `k`. What a new number does to them depends on whether it is less
than the greatest of them.
-/

namespace Zu.Lib

namespace Least

/-- How many of the set are less. -/
def rank (s : Finset ℕ) (n : ℕ) : ℕ := (s.filter (· < n)).card

/-- The least `k` of the set. -/
def least (k : ℕ) (s : Finset ℕ) : Finset ℕ := s.filter fun n => rank s n < k

variable {k n m l : ℕ} {s : Finset ℕ}

theorem mem_least : n ∈ least k s ↔ n ∈ s ∧ rank s n < k := Finset.mem_filter

theorem rank_mono (h : n ≤ m) : rank s n ≤ rank s m := by
  apply Finset.card_le_card
  intro a ha
  rw [Finset.mem_filter] at ha ⊢
  exact ⟨ha.1, Nat.lt_of_lt_of_le ha.2 h⟩

theorem rank_lt (hn : n ∈ s) (h : n < m) : rank s n < rank s m := by
  apply Finset.card_lt_card
  rw [Finset.ssubset_iff_of_subset]
  · exact ⟨n, Finset.mem_filter.2 ⟨hn, h⟩, fun hmem => Nat.lt_irrefl n (Finset.mem_filter.1 hmem).2⟩
  · intro a ha
    rw [Finset.mem_filter] at ha ⊢
    exact ⟨ha.1, ha.2.trans h⟩

theorem rank_lt_card (hn : n ∈ s) : rank s n < s.card := by
  apply Finset.card_lt_card
  rw [Finset.ssubset_iff_of_subset (Finset.filter_subset _ s)]
  exact ⟨n, hn, fun hmem => Nat.lt_irrefl n (Finset.mem_filter.1 hmem).2⟩

theorem rank_injOn : Set.InjOn (rank s) s := by
  intro n hn m hm heq
  rcases Nat.lt_trichotomy n m with h | h | h
  · exact absurd heq (Nat.ne_of_lt (rank_lt hn h))
  · exact h
  · exact absurd heq.symm (Nat.ne_of_lt (rank_lt hm h))

/-- The ranks in a set are the numbers less than its size. -/
theorem image_rank : s.image (rank s) = Finset.range s.card := by
  apply Finset.eq_of_subset_of_card_le
  · intro r hr
    obtain ⟨n, hn, rfl⟩ := Finset.mem_image.1 hr
    exact Finset.mem_range.2 (rank_lt_card hn)
  · rw [Finset.card_range, Finset.card_image_of_injOn rank_injOn]

theorem card_least : (least k s).card = min k s.card := by
  have himage : (least k s).image (rank s) = Finset.range (min k s.card) := by
    ext r
    rw [Finset.mem_image, Finset.mem_range, Nat.lt_min]
    constructor
    · rintro ⟨n, hn, rfl⟩
      obtain ⟨hmem, hrank⟩ := mem_least.1 hn
      exact ⟨hrank, rank_lt_card hmem⟩
    · rintro ⟨hk, hcard⟩
      have hr : r ∈ s.image (rank s) := by
        rw [image_rank]
        exact Finset.mem_range.2 hcard
      obtain ⟨n, hn, rfl⟩ := Finset.mem_image.1 hr
      exact ⟨n, mem_least.2 ⟨hn, hk⟩, rfl⟩
  have hinj : Set.InjOn (rank s) (least k s) := rank_injOn.mono (Finset.filter_subset _ s)
  rw [← Finset.card_image_of_injOn hinj, himage, Finset.card_range]

/-- Where there are fewer than `k`, all of them are the least. -/
theorem least_eq_self (h : s.card ≤ k) : least k s = s := by
  apply Finset.filter_true_of_mem
  exact fun n hn => Nat.lt_of_lt_of_le (rank_lt_card hn) h

theorem least_eq_self_of_card_lt (h : (least k s).card < k) : least k s = s := by
  rw [card_least] at h
  exact least_eq_self (by omega)

theorem rank_insert (hl : l ∉ s) : rank (insert l s) n = rank s n + if l < n then 1 else 0 := by
  rw [rank, rank, Finset.filter_insert]
  split
  · rw [Finset.card_insert_of_notMem fun hmem => hl (Finset.mem_filter.1 hmem).1]
  · rfl

/-- A number that is greater than `k` of the set is not among its least. -/
theorem least_insert_greater (hl : l ∉ s) (h : ∀ n ∈ least k s, n < l)
    (hfull : (least k s).card = k) : least k (insert l s) = least k s := by
  have hrank : k ≤ rank s l := by
    rw [← hfull]
    apply Finset.card_le_card
    intro n hn
    exact Finset.mem_filter.2 ⟨(mem_least.1 hn).1, h n hn⟩
  ext n
  rw [mem_least, mem_least, Finset.mem_insert, rank_insert hl]
  constructor
  · rintro ⟨rfl | hn, hlt⟩
    · exact absurd hrank (by omega)
    · exact ⟨hn, by omega⟩
  · rintro ⟨hn, hlt⟩
    have hless := h n (mem_least.2 ⟨hn, hlt⟩)
    rw [if_neg (Nat.not_lt.2 hless.le)]
    exact ⟨Or.inr hn, hlt⟩

/-- A number less than the greatest of them takes its place. -/
theorem least_insert_less {x : ℕ} (hl : l ∉ s) (hx : x ∈ least k s)
    (hmax : ∀ n ∈ least k s, n ≤ x) (hlx : l < x) (hfull : (least k s).card = k) :
    least k (insert l s) = insert l ((least k s).erase x) := by
  have hbelow : ∀ n ∈ s, n < x ↔ n ∈ (least k s).erase x := by
    intro n hn
    rw [Finset.mem_erase, mem_least]
    constructor
    · intro hlt
      exact ⟨hlt.ne, hn, Nat.lt_trans (rank_lt hn hlt) (mem_least.1 hx).2⟩
    · rintro ⟨hne, hmem⟩
      exact Nat.lt_of_le_of_ne (hmax n (mem_least.2 hmem)) hne
  have hrank : rank s x + 1 = k := by
    have heq : s.filter (· < x) = (least k s).erase x := by
      ext n
      rw [Finset.mem_filter]
      constructor
      · exact fun h => (hbelow n h.1).1 h.2
      · intro h
        have hn := (mem_least.1 (Finset.mem_of_mem_erase h)).1
        exact ⟨hn, (hbelow n hn).2 h⟩
    rw [rank, heq, Finset.card_erase_of_mem hx, hfull]
    have hpos := (mem_least.1 hx).2
    omega
  ext n
  rw [mem_least, Finset.mem_insert, Finset.mem_insert, rank_insert hl]
  constructor
  · rintro ⟨rfl | hn, hlt⟩
    · exact Or.inl rfl
    · right
      apply (hbelow n hn).1
      by_contra hge
      have hle := rank_mono (s := s) (Nat.le_of_not_lt hge)
      rw [if_pos (by omega)] at hlt
      omega
  · rintro (rfl | hn)
    · have hle := rank_mono (s := s) hlx.le
      rw [if_neg (Nat.lt_irrefl n)]
      exact ⟨Or.inl rfl, by omega⟩
    · have hmem := (mem_least.1 (Finset.mem_of_mem_erase hn)).1
      have hlt := rank_lt hmem ((hbelow n hmem).2 hn)
      refine ⟨Or.inr hmem, ?_⟩
      split <;> omega

end Least

end Zu.Lib
