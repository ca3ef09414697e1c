import Zu.Lib.BinarySearch

/-!
# Lists that ascend by key

A map kept as the list of its entries in key order: looking a key up, laying newer
entries over older ones in one pass, and the entries of a range. Entries that are
written one after another leave what the last one for a key says.
-/

namespace Zu.Lib

variable {α : Type*}

/-- The keys ascend. -/
def Ascending (l : List (ℕ × α)) : Prop := l.Pairwise fun a b => a.1 < b.1

def find (k : ℕ) (l : List (ℕ × α)) : Option α := (l.find? fun e => e.1 = k).map Prod.snd

/-- The entries without the one at their front for `k`. -/
def skip (k : ℕ) : List (ℕ × α) → List (ℕ × α)
  | [] => []
  | e :: l => if e.1 = k then l else e :: l

/-- Lays the entries of `recent` over those of `older`. -/
def overlay (older : List (ℕ × α)) : List (ℕ × α) → List (ℕ × α)
  | [] => older
  | e :: recent =>
      older.takeWhile (fun o => o.1 < e.1) ++
        e :: overlay (skip e.1 (older.dropWhile fun o => o.1 < e.1)) recent

/-- Where a search for `k` comes to in the entries, and the entry there if it is for
`k`. -/
def searchKey (k : ℕ) (l : List (ℕ × α)) : Option α :=
  ((l[partitionPoint (fun e => decide (e.1 < k)) l]?).filter fun e => e.1 = k).map Prod.snd

/-- The entries from the first that is not below `lo` to the first that is not below
`hi`. -/
def cut (lo hi : ℕ) (l : List (ℕ × α)) : List (ℕ × α) :=
  (l.take (partitionPoint (fun e => decide (e.1 < hi)) l)).drop
    (partitionPoint (fun e => decide (e.1 < lo)) l)

/-- What writing entries one after another leaves at `k`. -/
def lastOf (k : ℕ) (l : List (ℕ × α)) : Option α :=
  l.foldl (fun was e => if e.1 = k then some e.2 else was) none

theorem ascending_cons {e : ℕ × α} {l : List (ℕ × α)} :
    Ascending (e :: l) ↔ (∀ f ∈ l, e.1 < f.1) ∧ Ascending l := List.pairwise_cons

theorem find_eq_some {l : List (ℕ × α)} (h : Ascending l) {k : ℕ} {v : α} :
    find k l = some v ↔ (k, v) ∈ l := by
  induction l with
  | nil => exact iff_of_false (fun h => nomatch h) List.not_mem_nil
  | cons e l ih =>
      obtain ⟨hfirst, hrest⟩ := ascending_cons.1 h
      by_cases hk : e.1 = k
      · have hhead : find k (e :: l) = some e.2 := by
          rw [find, List.find?_cons_of_pos (by simpa using hk)]
          rfl
        rw [hhead]
        constructor
        · intro hv
          rw [← hk, ← Option.some.inj hv]
          exact List.mem_cons_self
        · intro hmem
          cases List.mem_cons.1 hmem with
          | inl heq => rw [← heq]
          | inr hin => exact absurd (hfirst _ hin) (hk ▸ lt_irrefl _)
      · have htail : find k (e :: l) = find k l := by
          rw [find, List.find?_cons_of_neg (by simpa using hk), find]
        rw [htail, ih hrest]
        constructor
        · exact List.mem_cons_of_mem e
        · intro hmem
          cases List.mem_cons.1 hmem with
          | inl heq => exact absurd (congrArg Prod.fst heq).symm hk
          | inr hin => exact hin

theorem find_eq_none {l : List (ℕ × α)} {k : ℕ} : find k l = none ↔ ∀ e ∈ l, e.1 ≠ k := by
  rw [find, Option.map_eq_none_iff, List.find?_eq_none]
  simp

/-- Two lists that ascend and have the same entries for `k` find the same. -/
theorem find_congr {l m : List (ℕ × α)} (hl : Ascending l) (hm : Ascending m) {k : ℕ}
    (h : ∀ v, (k, v) ∈ l ↔ (k, v) ∈ m) : find k l = find k m := by
  apply Option.ext
  intro v
  exact ((find_eq_some hl).trans (h v)).trans (find_eq_some hm).symm

theorem mem_skip {l : List (ℕ × α)} {k : ℕ} (h : Ascending l) (hle : ∀ e ∈ l, k ≤ e.1)
    {e : ℕ × α} : e ∈ skip k l ↔ e ∈ l ∧ e.1 ≠ k := by
  cases l with
  | nil => exact iff_of_false List.not_mem_nil fun h => absurd h.1 List.not_mem_nil
  | cons f l =>
      obtain ⟨hfirst, -⟩ := ascending_cons.1 h
      rw [skip]
      split
      case isTrue hk =>
        constructor
        · exact fun he => ⟨List.mem_cons_of_mem f he, fun heq => absurd (hfirst e he)
            (by rw [hk, heq]; exact lt_irrefl k)⟩
        · rintro ⟨he, hne⟩
          exact (List.mem_cons.1 he).resolve_left fun heq => hne (heq ▸ hk)
      case isFalse hk =>
        refine ⟨fun he => ⟨he, fun heq => ?_⟩, And.left⟩
        cases List.mem_cons.1 he with
        | inl hef => exact hk (hef ▸ heq)
        | inr hin =>
            have hlt := hfirst e hin
            rw [heq] at hlt
            exact absurd (hle f List.mem_cons_self) (not_le.2 hlt)

theorem ascending_skip {l : List (ℕ × α)} (k : ℕ) (h : Ascending l) : Ascending (skip k l) := by
  cases l with
  | nil => exact h
  | cons f l =>
      rw [skip]
      split
      · exact (ascending_cons.1 h).2
      · exact h

section

variable {older : List (ℕ × α)} {k : ℕ}

theorem takeWhile_append_dropWhile_lt (older : List (ℕ × α)) (k : ℕ) :
    older.takeWhile (fun o => o.1 < k) ++ older.dropWhile (fun o => o.1 < k) = older :=
  List.takeWhile_append_dropWhile

theorem take_length_takeWhile (l : List (ℕ × α)) (k : ℕ) :
    l.take (l.takeWhile fun e => e.1 < k).length = l.takeWhile fun e => e.1 < k :=
  (List.prefix_iff_eq_take.1 (List.takeWhile_prefix _)).symm

theorem drop_length_takeWhile (l : List (ℕ × α)) (k : ℕ) :
    l.drop (l.takeWhile fun e => e.1 < k).length = l.dropWhile fun e => e.1 < k := by
  have hsplit := List.take_append_drop (l.takeWhile fun e => e.1 < k).length l
  rw [take_length_takeWhile] at hsplit
  exact List.append_cancel_left (hsplit.trans (takeWhile_append_dropWhile_lt l k).symm)

theorem lt_of_mem_takeWhile {e : ℕ × α} (h : e ∈ older.takeWhile fun o => o.1 < k) : e.1 < k := by
  simpa using mem_takeWhile_true e h

theorem le_of_mem_dropWhile (h : Ascending older) {e : ℕ × α}
    (he : e ∈ older.dropWhile fun o => o.1 < k) : k ≤ e.1 := by
  induction older with
  | nil => exact absurd he List.not_mem_nil
  | cons f older ih =>
      obtain ⟨hfirst, hrest⟩ := ascending_cons.1 h
      rw [List.dropWhile_cons] at he
      split at he
      case isTrue => exact ih hrest he
      case isFalse hk =>
        have hle : k ≤ f.1 := by simpa using hk
        cases List.mem_cons.1 he with
        | inl heq => exact heq ▸ hle
        | inr hin => exact hle.trans (hfirst e hin).le

end

/-- The entries of an overlay: the newer ones, and the older ones whose key is not among
theirs. -/
theorem mem_overlay {older recent : List (ℕ × α)} (ho : Ascending older) (hr : Ascending recent)
    {e : ℕ × α} :
    e ∈ overlay older recent ↔ e ∈ recent ∨ e ∈ older ∧ ∀ f ∈ recent, f.1 ≠ e.1 := by
  induction recent generalizing older with
  | nil => simp [overlay]
  | cons n recent ih =>
      obtain ⟨hfirst, hrest⟩ := ascending_cons.1 hr
      have hdrop : Ascending (older.dropWhile fun o => o.1 < n.1) :=
        ho.sublist (List.dropWhile_sublist _)
      have hskip := ascending_skip n.1 hdrop
      rw [overlay, List.mem_append, List.mem_cons, ih hskip hrest,
        mem_skip hdrop fun f hf => le_of_mem_dropWhile ho hf]
      have holder : e ∈ older ↔ e ∈ older.takeWhile (fun o => o.1 < n.1) ∨
          e ∈ older.dropWhile fun o => o.1 < n.1 := by
        rw [← List.mem_append, takeWhile_append_dropWhile_lt]
      constructor
      · rintro (htake | hn | hin | ⟨⟨hin, hne⟩, hnone⟩)
        · have hlt := lt_of_mem_takeWhile htake
          refine Or.inr ⟨holder.2 (Or.inl htake), fun f hf => ?_⟩
          cases List.mem_cons.1 hf with
          | inl heq => exact heq ▸ hlt.ne'
          | inr hmem => exact (hlt.trans (hfirst f hmem)).ne'
        · exact Or.inl (hn ▸ List.mem_cons_self)
        · exact Or.inl (List.mem_cons_of_mem n hin)
        · refine Or.inr ⟨holder.2 (Or.inr hin), fun f hf => ?_⟩
          cases List.mem_cons.1 hf with
          | inl heq => exact heq ▸ Ne.symm hne
          | inr hmem => exact hnone f hmem
      · rintro (hin | ⟨hin, hnone⟩)
        · cases List.mem_cons.1 hin with
          | inl heq => exact Or.inr (Or.inl heq)
          | inr hmem => exact Or.inr (Or.inr (Or.inl hmem))
        · cases holder.1 hin with
          | inl htake => exact Or.inl htake
          | inr hdropped =>
              refine Or.inr (Or.inr (Or.inr ⟨⟨hdropped, ?_⟩, ?_⟩))
              · exact (hnone n List.mem_cons_self).symm
              · exact fun f hf => hnone f (List.mem_cons_of_mem n hf)

theorem ascending_overlay {older recent : List (ℕ × α)} (ho : Ascending older)
    (hr : Ascending recent) : Ascending (overlay older recent) := by
  induction recent generalizing older with
  | nil => exact ho
  | cons n recent ih =>
      obtain ⟨hfirst, hrest⟩ := ascending_cons.1 hr
      have hdrop : Ascending (older.dropWhile fun o => o.1 < n.1) :=
        ho.sublist (List.dropWhile_sublist _)
      have hskip := ascending_skip n.1 hdrop
      have habove : ∀ f ∈ overlay (skip n.1 (older.dropWhile fun o => o.1 < n.1)) recent,
          n.1 < f.1 := by
        intro f hf
        cases (mem_overlay hskip hrest).1 hf with
        | inl hin => exact hfirst f hin
        | inr hin =>
            have hmem := (mem_skip hdrop fun g hg => le_of_mem_dropWhile ho hg).1 hin.1
            exact lt_of_le_of_ne (le_of_mem_dropWhile ho hmem.1) (Ne.symm hmem.2)
      rw [overlay]
      refine List.pairwise_append.2 ⟨ho.sublist (List.takeWhile_sublist _),
        ascending_cons.2 ⟨habove, ih hskip hrest⟩, fun a ha b hb => ?_⟩
      have hlt := lt_of_mem_takeWhile ha
      cases List.mem_cons.1 hb with
      | inl heq => exact heq ▸ hlt
      | inr hin => exact hlt.trans (habove b hin)

/-- Newer entries win. -/
theorem find_overlay {older recent : List (ℕ × α)} (ho : Ascending older) (hr : Ascending recent)
    (k : ℕ) : find k (overlay older recent) = (find k recent).or (find k older) := by
  have hlay := ascending_overlay ho hr
  cases hrecent : find k recent with
  | some v =>
      rw [Option.some_or]
      exact (find_eq_some hlay).2 ((mem_overlay ho hr).2 (Or.inl ((find_eq_some hr).1 hrecent)))
  | none =>
      rw [Option.none_or]
      have hnone := find_eq_none.1 hrecent
      refine find_congr hlay ho fun v => ?_
      rw [mem_overlay ho hr]
      constructor
      · exact fun h => h.elim (fun hin => absurd rfl (hnone _ hin)) And.left
      · exact fun h => Or.inr ⟨h, hnone⟩

theorem partitionPoint_lt {l : List (ℕ × α)} (h : Ascending l) (k : ℕ) :
    partitionPoint (fun e => decide (e.1 < k)) l = (l.takeWhile fun e => e.1 < k).length := by
  have hsplit := takeWhile_append_dropWhile_lt l k
  have hpoint := partitionPoint_append (p := fun e : ℕ × α => decide (e.1 < k))
    (a := l.takeWhile fun e => e.1 < k) (b := l.dropWhile fun e => e.1 < k)
    (fun e he => by simpa using lt_of_mem_takeWhile he)
    (fun e he => by simpa using le_of_mem_dropWhile h he)
  rwa [hsplit] at hpoint

theorem searchKey_eq_find {l : List (ℕ × α)} (h : Ascending l) (k : ℕ) : searchKey k l = find k l := by
  have hsplit := takeWhile_append_dropWhile_lt l k
  have hdrop : Ascending (l.dropWhile fun e => e.1 < k) := h.sublist (List.dropWhile_sublist _)
  have hat : l[(l.takeWhile fun e => e.1 < k).length]? = (l.dropWhile fun e => e.1 < k).head? := by
    rw [← drop_length_takeWhile, List.head?_drop]
  have hfind : find k l = find k (l.dropWhile fun e => e.1 < k) := by
    refine find_congr h hdrop fun v => ?_
    constructor
    · intro hv
      rw [← hsplit] at hv
      exact (List.mem_append.1 hv).resolve_left fun hin => lt_irrefl k (lt_of_mem_takeWhile hin)
    · exact fun hv => (List.dropWhile_sublist _).subset hv
  rw [searchKey, partitionPoint_lt h, hat, hfind]
  cases hrest : l.dropWhile fun e => e.1 < k with
  | nil => rfl
  | cons e rest =>
      rw [List.head?_cons, find]
      by_cases hk : e.1 = k
      · rw [List.find?_cons_of_pos (by simpa using hk), Option.filter_some,
          if_pos (by simpa using hk)]
      · have hlt : k < e.1 :=
          lt_of_le_of_ne (le_of_mem_dropWhile h (hrest ▸ List.mem_cons_self)) (Ne.symm hk)
        rw [hrest] at hdrop
        have hnone : rest.find? (fun f => f.1 = k) = none := by
          rw [List.find?_eq_none]
          intro f hf
          simpa using (hlt.trans ((ascending_cons.1 hdrop).1 f hf)).ne'
        rw [List.find?_cons_of_neg (by simpa using hk), hnone, Option.filter_some,
          if_neg (by simpa using hk)]

/-- The entries of a range are those whose key is in it. -/
theorem mem_cut {l : List (ℕ × α)} (h : Ascending l) {lo hi : ℕ} {e : ℕ × α} :
    e ∈ cut lo hi l ↔ e ∈ l ∧ lo ≤ e.1 ∧ e.1 < hi := by
  have htake := take_length_takeWhile l hi
  have hdrop := drop_length_takeWhile l lo
  rw [cut, partitionPoint_lt h, partitionPoint_lt h]
  constructor
  · intro he
    have hin : e ∈ l.takeWhile fun e => e.1 < hi := htake ▸ List.mem_of_mem_drop he
    have hout : e ∈ l.dropWhile fun e => e.1 < lo := by
      rw [List.drop_take] at he
      exact hdrop ▸ List.mem_of_mem_take he
    exact ⟨(List.takeWhile_sublist _).subset hin, le_of_mem_dropWhile h hout,
      lt_of_mem_takeWhile hin⟩
  · rintro ⟨he, hlo, hhi⟩
    have hin : e ∈ l.takeWhile fun e => e.1 < hi := by
      rw [← takeWhile_append_dropWhile_lt l hi, List.mem_append] at he
      exact he.resolve_right fun hout => absurd hhi (not_lt.2 (le_of_mem_dropWhile h hout))
    rw [htake]
    have hsplit : e ∈ (l.takeWhile fun e => e.1 < hi).take (l.takeWhile fun e => e.1 < lo).length ∨
        e ∈ (l.takeWhile fun e => e.1 < hi).drop (l.takeWhile fun e => e.1 < lo).length := by
      rw [← List.mem_append, List.take_append_drop]
      exact hin
    refine hsplit.resolve_left fun hlow => ?_
    have hlow' : e ∈ l.take (l.takeWhile fun e => e.1 < lo).length := by
      rw [← htake, List.take_take] at hlow
      exact (List.take_subset_take_left l (Nat.min_le_left _ _)) hlow
    have hmem : e ∈ l.takeWhile fun e => e.1 < lo := by
      rw [take_length_takeWhile] at hlow'
      exact hlow'
    exact absurd (lt_of_mem_takeWhile hmem) (not_lt.2 hlo)

theorem ascending_cut {l : List (ℕ × α)} (h : Ascending l) (lo hi : ℕ) :
    Ascending (cut lo hi l) :=
  (h.sublist (List.take_sublist _ _)).sublist (List.drop_sublist _ _)

theorem find_cut {l : List (ℕ × α)} (h : Ascending l) (lo hi k : ℕ) :
    find k (cut lo hi l) = if lo ≤ k ∧ k < hi then find k l else none := by
  split
  case isTrue hk =>
    exact find_congr (ascending_cut h lo hi) h fun v =>
      ⟨fun hv => ((mem_cut h).1 hv).1, fun hv => (mem_cut h).2 ⟨hv, hk⟩⟩
  case isFalse hk =>
    rw [find_eq_none]
    exact fun e he heq => hk (heq ▸ ((mem_cut h).1 he).2)

/-! ### Writing one after another -/

theorem foldl_lastOf (k : ℕ) (l : List (ℕ × α)) (was : Option α) :
    l.foldl (fun was e => if e.1 = k then some e.2 else was) was = (lastOf k l).or was := by
  induction l generalizing was with
  | nil => rfl
  | cons e l ih =>
      rw [lastOf, List.foldl_cons, List.foldl_cons, ih, ih]
      split
      · rw [Option.or_assoc, Option.some_or]
      · rw [Option.or_none]

theorem lastOf_append (k : ℕ) (l m : List (ℕ × α)) :
    lastOf k (l ++ m) = (lastOf k m).or (lastOf k l) := by
  rw [lastOf, List.foldl_append, foldl_lastOf]
  rfl

theorem lastOf_eq_find {l : List (ℕ × α)} (h : Ascending l) (k : ℕ) : lastOf k l = find k l := by
  induction l with
  | nil => rfl
  | cons e l ih =>
      obtain ⟨hfirst, hrest⟩ := ascending_cons.1 h
      have hsingle : lastOf k [e] = if e.1 = k then some e.2 else none := rfl
      rw [← List.singleton_append, lastOf_append, ih hrest, hsingle, List.singleton_append]
      by_cases hk : e.1 = k
      · have hnone : find k l = none :=
          find_eq_none.2 fun f hf heq => (hfirst f hf).ne (hk.trans heq.symm)
        rw [hnone, if_pos hk, Option.none_or, find, List.find?_cons_of_pos (by simpa using hk)]
        rfl
      · rw [if_neg hk, Option.or_none, find, find, List.find?_cons_of_neg (by simpa using hk)]

end Zu.Lib
