import Mathlib

/-!
# Map entries

`entry m k d f` is the map `m` once the value at `k`, or `d` where there is none,
has been changed by `f`. Changes at different keys commute, and changes at one
key commute when the functions do. `pairCmp` orders pairs by their first
component and then by their second.
-/

namespace Zu.Lib

open Std

def pairCmp {α β : Type*} (ca : α → α → Ordering) (cb : β → β → Ordering) :
    α × β → α × β → Ordering :=
  compareLex (fun x y => ca x.1 y.1) fun x y => cb x.2 y.2

section

variable {α β : Type*} {ca : α → α → Ordering} {cb : β → β → Ordering}

instance transCmpFst [TransCmp ca] : TransCmp fun x y : α × β => ca x.1 y.1 where
  eq_swap := OrientedCmp.eq_swap
  isLE_trans h h' := TransCmp.isLE_trans h h'

instance transCmpSnd [TransCmp cb] : TransCmp fun x y : α × β => cb x.2 y.2 where
  eq_swap := OrientedCmp.eq_swap
  isLE_trans h h' := TransCmp.isLE_trans h h'

instance [TransCmp ca] [TransCmp cb] : TransCmp (pairCmp ca cb) :=
  inferInstanceAs (TransCmp (compareLex _ _))

instance [LawfulEqCmp ca] [LawfulEqCmp cb] : LawfulEqCmp (pairCmp ca cb) where
  compare_self {x} := by
    rw [pairCmp, compareLex_eq_eq]
    exact ⟨ReflCmp.compare_self, ReflCmp.compare_self⟩
  eq_of_compare {x y} h := by
    rw [pairCmp, compareLex_eq_eq] at h
    exact Prod.ext (LawfulEqCmp.eq_of_compare h.1) (LawfulEqCmp.eq_of_compare h.2)

end

variable {κ ν : Type*} {cmp : κ → κ → Ordering} [TransCmp cmp]

/-- Changes the value at `k` by `f`, starting it at `d` where there is none. -/
def entry (m : ExtTreeMap κ ν cmp) (k : κ) (d : ν) (f : ν → ν) :
    ExtTreeMap κ ν cmp :=
  m.alter k fun v => some (f (v.getD d))

theorem getElem?_entry_self (m : ExtTreeMap κ ν cmp) (k : κ) (d : ν) (f : ν → ν) :
    (entry m k d f)[k]? = some (f (m[k]?.getD d)) := by
  rw [entry, ExtTreeMap.getElem?_alter_self]

variable [LawfulEqCmp cmp]

theorem getElem?_entry_of_ne (m : ExtTreeMap κ ν cmp) {k k' : κ} (h : k ≠ k')
    (d : ν) (f : ν → ν) : (entry m k d f)[k']? = m[k']? := by
  rw [entry, ExtTreeMap.getElem?_alter, if_neg]
  exact fun heq => h (LawfulEqCmp.eq_of_compare heq)

/-- Two changes at one key are one change. -/
theorem entry_entry (m : ExtTreeMap κ ν cmp) (k : κ) (d : ν) (f g : ν → ν) :
    entry (entry m k d g) k d f = entry m k d fun v => f (g v) := by
  refine ExtTreeMap.ext_getElem? fun a => ?_
  by_cases ha : k = a
  · subst ha
    simp only [getElem?_entry_self, Option.getD_some]
  · simp only [getElem?_entry_of_ne _ ha]

/-- Two changes commute when they are at different keys or their functions
commute. -/
theorem entry_comm (m : ExtTreeMap κ ν cmp) (k k' : κ) (d : ν) (f g : ν → ν)
    (h : k = k' → ∀ v, f (g v) = g (f v)) :
    entry (entry m k' d g) k d f = entry (entry m k d f) k' d g := by
  refine ExtTreeMap.ext_getElem? fun a => ?_
  by_cases hk : k = k'
  · subst hk
    by_cases ha : k = a
    · subst ha
      simp only [getElem?_entry_self, Option.getD_some, h rfl]
    · simp only [getElem?_entry_of_ne _ ha]
  · by_cases ha : k = a
    · subst ha
      rw [getElem?_entry_self, getElem?_entry_of_ne _ (Ne.symm hk),
        getElem?_entry_of_ne _ (Ne.symm hk), getElem?_entry_self]
    · rw [getElem?_entry_of_ne _ ha]
      by_cases ha' : k' = a
      · subst ha'
        rw [getElem?_entry_self, getElem?_entry_self, getElem?_entry_of_ne _ ha]
      · rw [getElem?_entry_of_ne _ ha', getElem?_entry_of_ne _ ha',
          getElem?_entry_of_ne _ ha]

end Zu.Lib
