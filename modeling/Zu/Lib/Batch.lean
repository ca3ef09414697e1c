import Zu.Lib.Entry

/-!
# Batching by key

`batched select as` groups the items of a list that `select` gives a key, each
key's values in list order, and `regrouped` lists them again key by key. Where an
item can be rebuilt from its key and value, regrouping keeps the order of the
items at one key.
-/

namespace Zu.Lib

open Std

variable {α κ ν : Type*} {cmp : κ → κ → Ordering} [TransCmp cmp] [LawfulEqCmp cmp]
  {select : α → Option (κ × ν)} {mk : κ → ν → α}

/-- Adds an item to the batch of its key. -/
def batch (select : α → Option (κ × ν)) (m : ExtTreeMap κ (List ν) cmp) (a : α) :
    ExtTreeMap κ (List ν) cmp :=
  match select a with
  | none => m
  | some e => entry m e.1 [] fun vs => vs ++ [e.2]

def batched (cmp : κ → κ → Ordering) [TransCmp cmp] (select : α → Option (κ × ν))
    (as : List α) : ExtTreeMap κ (List ν) cmp :=
  as.foldl (batch select) {}

/-- The items of the batches, key by key. -/
def regrouped (mk : κ → ν → α) (m : ExtTreeMap κ (List ν) cmp) : List α :=
  m.toList.flatMap fun e => e.2.map (mk e.1)

/-- The values of one key, in list order. -/
theorem getElem?_foldl_batch [DecidableEq κ] (as : List α)
    (m : ExtTreeMap κ (List ν) cmp) (k : κ) :
    (as.foldl (batch select) m)[k]?.getD [] =
      m[k]?.getD [] ++ as.filterMap fun a =>
        (select a).bind fun e => if e.1 = k then some e.2 else none := by
  induction as generalizing m with
  | nil => rw [List.foldl_nil, List.filterMap_nil, List.append_nil]
  | cons a as ih =>
      rw [List.foldl_cons, ih, List.filterMap_cons]
      cases hsel : select a with
      | none => rw [batch, hsel]; rfl
      | some e =>
          by_cases hk : e.1 = k
          · subst hk
            simp [batch, hsel, getElem?_entry_self]
          · simp [batch, hsel, hk, getElem?_entry_of_ne m hk]

variable (cmp select) in
theorem getElem?_batched [DecidableEq κ] (as : List α) (k : κ) :
    (batched cmp select as)[k]?.getD [] = as.filterMap fun a =>
      (select a).bind fun e => if e.1 = k then some e.2 else none := by
  rw [batched, getElem?_foldl_batch]
  simp

theorem mem_batched [DecidableEq κ] {as : List α} {e : κ × List ν}
    (h : e ∈ (batched cmp select as).toList) {v : ν} (hv : v ∈ e.2) :
    ∃ a ∈ as, select a = some (e.1, v) := by
  have hget := ExtTreeMap.mem_toList_iff_getElem?_eq_some.1 h
  have hvals := getElem?_batched cmp select as e.1
  rw [hget, Option.getD_some] at hvals
  rw [hvals, List.mem_filterMap] at hv
  obtain ⟨a, ha, hsel⟩ := hv
  obtain ⟨e', he', hif⟩ := Option.bind_eq_some_iff.1 hsel
  split_ifs at hif with hkey
  refine ⟨a, ha, ?_⟩
  rw [he', ← hkey, ← Option.some.inj hif]

theorem ne_nil_of_getElem?_foldl_batch [DecidableEq κ] (as : List α)
    {m : ExtTreeMap κ (List ν) cmp} (hm : ∀ (k : κ) vs, m[k]? = some vs → vs ≠ []) {k : κ}
    {vs : List ν} (h : (as.foldl (batch select) m)[k]? = some vs) : vs ≠ [] := by
  induction as generalizing m with
  | nil => exact hm k vs h
  | cons a as ih =>
      refine ih (fun k' vs' h' => ?_) h
      cases hsel : select a with
      | none =>
          rw [batch, hsel] at h'
          exact hm k' vs' h'
      | some e =>
          rw [batch, hsel] at h'
          by_cases hk : e.1 = k'
          · subst hk
            rw [getElem?_entry_self] at h'
            rw [← Option.some.inj h']
            simp
          · rw [getElem?_entry_of_ne m hk] at h'
            exact hm k' vs' h'

theorem ne_nil_of_mem_batched [DecidableEq κ] {as : List α} {e : κ × List ν}
    (h : e ∈ (batched cmp select as).toList) : e.2 ≠ [] := by
  have hget := ExtTreeMap.mem_toList_iff_getElem?_eq_some.1 h
  exact ne_nil_of_getElem?_foldl_batch as (fun k vs hk => by simp at hk) hget

/-- Every regrouped item was selected. -/
theorem mem_regrouped [DecidableEq κ]
    (hmk : ∀ a k v, select a = some (k, v) → mk k v = a) {as : List α} {a : α}
    (h : a ∈ regrouped mk (batched cmp select as)) : ∃ e, select a = some e := by
  obtain ⟨e, he, ha⟩ := List.mem_flatMap.1 h
  obtain ⟨v, hv, rfl⟩ := List.mem_map.1 ha
  obtain ⟨b, -, hsel⟩ := mem_batched he hv
  exact ⟨_, (hmk b e.1 v hsel).symm ▸ hsel⟩

/-- Where only one key's entry meets a predicate, a filtered walk of the map is
the walk of that entry. -/
theorem filter_flatMap_toList (m : ExtTreeMap κ ν cmp) (g : κ × ν → List α)
    (p : α → Bool) (k : κ)
    (h : ∀ e ∈ m.toList, e.1 ≠ k → (g e).filter p = []) :
    (m.toList.flatMap g).filter p =
      (m[k]?).elim [] fun v => (g (k, v)).filter p := by
  have hdistinct := ExtTreeMap.distinct_keys_toList (t := m)
  have hmem : ∀ v, (k, v) ∈ m.toList ↔ m[k]? = some v := fun v =>
    ExtTreeMap.mem_toList_iff_getElem?_eq_some
  revert h hdistinct hmem
  generalize m.toList = l
  generalize m[k]? = found
  intro h hdistinct hmem
  induction l generalizing found with
  | nil =>
      cases found with
      | none => rfl
      | some v => exact absurd ((hmem v).2 rfl) List.not_mem_nil
  | cons e l ih =>
      obtain ⟨hhead, htail⟩ := List.pairwise_cons.1 hdistinct
      rw [List.flatMap_cons, List.filter_append]
      by_cases hk : e.1 = k
      · -- the other entries have other keys
        have hrest : (l.flatMap g).filter p = [] := by
          rw [List.filter_eq_nil_iff]
          intro a ha
          obtain ⟨e', he', ha'⟩ := List.mem_flatMap.1 ha
          have hne : e'.1 ≠ k := by
            intro heq
            exact hhead e' he' (by rw [hk, heq]; exact ReflCmp.compare_self)
          exact List.filter_eq_nil_iff.1 (h e' (List.mem_cons_of_mem e he') hne) a ha'
        have hfound : found = some e.2 := by
          refine (hmem e.2).1 ?_
          rw [← hk]
          exact List.mem_cons_self
        rw [hrest, hfound, List.append_nil, Option.elim_some, ← hk]
      · rw [h e List.mem_cons_self hk, List.nil_append]
        refine ih found (fun e' he' => h e' (List.mem_cons_of_mem e he')) htail ?_
        intro v
        rw [← hmem v, List.mem_cons, or_iff_right]
        rintro rfl
        exact hk rfl

/-- Regrouping keeps the items that share one key in order. -/
theorem filter_regrouped [DecidableEq κ]
    (hmk : ∀ a k v, select a = some (k, v) → mk k v = a) (as : List α)
    (p : α → Bool) (k : κ) (hp : ∀ a, p a → ∃ v, select a = some (k, v)) :
    (regrouped mk (batched cmp select as)).filter p = as.filter p := by
  rw [regrouped, filter_flatMap_toList _ _ p k]
  · have hvals := getElem?_batched cmp select as k
    have hvalues : ((batched cmp select as)[k]?).elim []
          (fun vs => (vs.map (mk k)).filter p) =
        (((batched cmp select as)[k]?.getD []).map (mk k)).filter p := by
      cases (batched cmp select as)[k]? <;> rfl
    rw [hvalues, hvals]
    clear hvals hvalues
    induction as with
    | nil => rfl
    | cons a as ih =>
        rw [List.filterMap_cons, List.filter_cons]
        by_cases hpa : p a
        · obtain ⟨v, hv⟩ := hp a hpa
          simp only [hv, Option.bind_some, if_true, List.map_cons, hmk a k v hv,
            List.filter_cons, hpa, ih]
        · cases hsel : select a with
          | none => simpa [hsel, hpa] using ih
          | some e =>
              by_cases hk : e.1 = k
              · have ha : mk k e.2 = a := hmk a k e.2 (by rw [hsel, ← hk])
                simpa [hsel, hk, ha, hpa] using ih
              · simpa [hsel, hk, hpa] using ih
  · intro e he hne
    rw [List.filter_eq_nil_iff]
    intro a ha hpa
    obtain ⟨v, hv, rfl⟩ := List.mem_map.1 ha
    obtain ⟨b, -, hsel⟩ := mem_batched he hv
    rw [hmk b e.1 v hsel] at hpa
    obtain ⟨w, hw⟩ := hp b hpa
    rw [hsel] at hw
    exact hne (congrArg Prod.fst (Option.some.inj hw))

end Zu.Lib
