import Zu.Lib.Entry

/-!
# Lists that grow by later entries

Every entry of a list carries a stamp. `Later stamp mark l l'` says that `l'` is
`l` with entries on the end whose stamps are past the mark, and then nothing that
asks about entries at or below the mark tells the two apart. `LaterMap` says the
same of the lists a map holds, where a missing list is an empty one.
-/

namespace Zu.Lib

open Std

variable {α : Type*} {stamp : α → ℕ} {mark : ℕ} {l l' l'' : List α}

/-- `l'` is `l` and then entries stamped past the mark. -/
def Later (stamp : α → ℕ) (mark : ℕ) (l l' : List α) : Prop :=
  ∃ new, l' = l ++ new ∧ ∀ a ∈ new, mark < stamp a

theorem Later.refl (stamp : α → ℕ) (mark : ℕ) (l : List α) : Later stamp mark l l :=
  ⟨[], by simp⟩

theorem Later.trans (h : Later stamp mark l l') (h' : Later stamp mark l' l'') :
    Later stamp mark l l'' := by
  obtain ⟨new, rfl, hnew⟩ := h
  obtain ⟨new', rfl, hnew'⟩ := h'
  refine ⟨new ++ new', List.append_assoc _ _ _, fun a ha => ?_⟩
  rcases List.mem_append.1 ha with ha | ha
  · exact hnew a ha
  · exact hnew' a ha

theorem Later.append (l new : List α) (h : ∀ a ∈ new, mark < stamp a) :
    Later stamp mark l (l ++ new) :=
  ⟨new, rfl, h⟩

theorem Later.concat (l : List α) {a : α} (h : mark < stamp a) :
    Later stamp mark l (l ++ [a]) :=
  Later.append l [a] (by simpa using h)

/-- What looks at no entry past the mark collects the same. -/
theorem Later.filterMap_eq {β : Type*} (h : Later stamp mark l l') {f : α → Option β}
    (hf : ∀ a, mark < stamp a → f a = none) : l'.filterMap f = l.filterMap f := by
  obtain ⟨new, rfl, hnew⟩ := h
  have hnone : new.filterMap f = [] := by
    rw [List.filterMap_eq_nil_iff]
    intro a ha
    exact hf a (hnew a ha)
  rw [List.filterMap_append, hnone, List.append_nil]

theorem Later.filter_eq (h : Later stamp mark l l') {p : α → Bool}
    (hp : ∀ a, mark < stamp a → p a = false) : l'.filter p = l.filter p := by
  obtain ⟨new, rfl, hnew⟩ := h
  have hnone : new.filter p = [] := by
    rw [List.filter_eq_nil_iff]
    intro a ha
    simp [hp a (hnew a ha)]
  rw [List.filter_append, hnone, List.append_nil]

theorem Later.any_eq (h : Later stamp mark l l') {p : α → Bool}
    (hp : ∀ a, mark < stamp a → p a = false) : l'.any p = l.any p := by
  obtain ⟨new, rfl, hnew⟩ := h
  have hnone : new.any p = false := by
    rw [List.any_eq_false]
    intro a ha
    simp [hp a (hnew a ha)]
  rw [List.any_append, hnone, Bool.or_false]

/-- The newest entry a reader at the mark sees is the same. -/
theorem Later.find?_reverse_eq (h : Later stamp mark l l') {p : α → Bool}
    (hp : ∀ a, mark < stamp a → p a = false) : l'.reverse.find? p = l.reverse.find? p := by
  obtain ⟨new, rfl, hnew⟩ := h
  have hnone : new.reverse.find? p = none := by
    rw [List.find?_eq_none]
    intro a ha
    simp [hp a (hnew a (List.mem_reverse.1 ha))]
  rw [List.reverse_append, List.find?_append, hnone, Option.none_or]

/-- The first entry, when it is not past the mark, is the same. -/
theorem Later.head?_any_eq (h : Later stamp mark l l') {p : α → Bool}
    (hp : ∀ a, mark < stamp a → p a = false) : l'.head?.any p = l.head?.any p := by
  obtain ⟨new, rfl, hnew⟩ := h
  cases l with
  | cons a l => rfl
  | nil =>
      cases new with
      | nil => rfl
      | cons a new => simpa using hp a (hnew a List.mem_cons_self)

section

variable {κ ν : Type*} {cmp : κ → κ → Ordering} [TransCmp cmp]

/-- The lists of `m'` are those of `m` with later entries on the end. -/
def LaterMap (stamp : α → ℕ) (mark : ℕ) (m m' : ExtTreeMap κ (List α) cmp) : Prop :=
  ∀ k : κ, Later stamp mark (m[k]?.getD []) (m'[k]?.getD [])

variable {m m' m'' : ExtTreeMap κ (List α) cmp}

theorem LaterMap.refl (stamp : α → ℕ) (mark : ℕ) (m : ExtTreeMap κ (List α) cmp) :
    LaterMap stamp mark m m :=
  fun _ => Later.refl stamp mark _

theorem LaterMap.trans (h : LaterMap stamp mark m m') (h' : LaterMap stamp mark m' m'') :
    LaterMap stamp mark m m'' :=
  fun k => (h k).trans (h' k)

variable [LawfulEqCmp cmp]

/-- Changing one entry of a map keeps a relation at every key. -/
theorem entry_rel {R : ν → ν → Prop} (hrefl : ∀ v, R v v) (m : ExtTreeMap κ ν cmp) (k : κ)
    (d : ν) {f : ν → ν} (hf : ∀ v, R v (f v)) (a : κ) :
    R (m[a]?.getD d) ((entry m k d f)[a]?.getD d) := by
  by_cases h : k = a
  · subst h
    rw [getElem?_entry_self]
    exact hf _
  · rw [getElem?_entry_of_ne m h]
    exact hrefl _

theorem LaterMap.entry (m : ExtTreeMap κ (List α) cmp) (k : κ) {f : List α → List α}
    (hf : ∀ l, Later stamp mark l (f l)) : LaterMap stamp mark m (entry m k [] f) :=
  entry_rel (Later.refl stamp mark) m k [] hf

/-- What makes nothing of an empty list, and the same of lists that differ in later
entries, makes the same of both maps. -/
theorem LaterMap.filterMap_eq {β : Type*} (h : LaterMap stamp mark m m')
    {f : κ → List α → Option β} (hnil : ∀ k, f k [] = none)
    (hf : ∀ k l l', Later stamp mark l l' → f k l' = f k l) :
    m'.filterMap f = m.filterMap f := by
  have hread : ∀ (m : ExtTreeMap κ (List α) cmp) k,
      (m.filterMap f)[k]? = f k (m[k]?.getD []) := by
    intro m k
    rw [ExtTreeMap.getElem?_filterMap']
    cases m[k]? with
    | none => exact (hnil k).symm
    | some l => rfl
  apply ExtTreeMap.ext_getElem?
  intro k
  rw [hread, hread]
  exact hf k _ _ (h k)

end

end Zu.Lib
