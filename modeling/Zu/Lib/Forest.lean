import Mathlib

/-!
# Forests of parents

A list gives each index a parent, which is no greater. An index that is its own parent is a
root. Indexes that are joined have the same root, and it is the least of them.
-/

namespace Zu.Lib

/-- What is related step by step by one relation is so by another. -/
theorem eqvGen_lift {α : Type*} {r s : α → α → Prop}
    (h : ∀ a b, r a b → Relation.EqvGen s a b) {a b : α} (hab : Relation.EqvGen r a b) :
    Relation.EqvGen s a b := by
  induction hab with
  | rel a b hr => exact h a b hr
  | refl a => exact .refl a
  | symm a b _ ih => exact ih.symm
  | trans a b c _ _ ih ih' => exact ih.trans _ _ _ ih'

/-- Related step by step is joined by a path whose steps go either way. -/
theorem eqvGen_iff_path {α : Type*} {r : α → α → Prop} {a b : α} :
    Relation.EqvGen r a b ↔ Relation.ReflTransGen (fun a b => r a b ∨ r b a) a b := by
  constructor
  · intro h
    have hback : ∀ {a b}, Relation.ReflTransGen (fun a b => r a b ∨ r b a) a b →
        Relation.ReflTransGen (fun a b => r a b ∨ r b a) b a := by
      intro a b h
      induction h with
      | refl => exact .refl
      | tail _ hstep ih => exact .head hstep.symm ih
    induction h with
    | rel a b hr => exact .single (Or.inl hr)
    | refl a => exact .refl
    | symm a b _ ih => exact hback ih
    | trans a b c _ _ ih ih' => exact ih.trans ih'
  · intro h
    induction h with
    | refl => exact .refl a
    | tail _ hstep ih =>
        rcases hstep with hr | hr
        · exact ih.trans _ _ _ (.rel _ _ hr)
        · exact ih.trans _ _ _ (.symm _ _ (.rel _ _ hr))

namespace Forest

/-- Every index has a parent that is no greater. -/
def Ordered (parent : List ℕ) : Prop := ∀ i < parent.length, ∃ p ≤ i, parent[i]? = some p

/-- An index that is its own parent. -/
def Root (parent : List ℕ) (r : ℕ) : Prop := parent[r]? = some r

/-- In one tree. -/
def Same (parent : List ℕ) : ℕ → ℕ → Prop :=
  Relation.EqvGen fun i p => parent[i]? = some p

variable {parent : List ℕ} {i j p r : ℕ}

theorem same_of_parent (h : parent[i]? = some p) : Same parent i p := .rel i p h

theorem Same.symm (h : Same parent i j) : Same parent j i := Relation.EqvGen.symm _ _ h

theorem Same.trans (h : Same parent i j) (h' : Same parent j p) : Same parent i p :=
  Relation.EqvGen.trans _ _ _ h h'

/-- The parents of an index lead to this root. -/
def Leads (parent : List ℕ) (i r : ℕ) : Prop :=
  Relation.ReflTransGen (fun i p => parent[i]? = some p) i r ∧ Root parent r

theorem leads_parent (h : parent[i]? = some p) : Leads parent i r ↔ Leads parent p r := by
  constructor
  · rintro ⟨hpath, hroot⟩
    refine ⟨?_, hroot⟩
    rcases hpath.cases_head with rfl | ⟨q, hq, hrest⟩
    · rw [Root, h, Option.some.injEq] at hroot
      rw [hroot]
    · rw [h, Option.some.injEq] at hq
      rw [hq]
      exact hrest
  · rintro ⟨hpath, hroot⟩
    exact ⟨.head h hpath, hroot⟩

/-- Indexes of one tree lead to the same root. -/
theorem Same.leads (h : Same parent i j) : Leads parent i r ↔ Leads parent j r := by
  induction h with
  | rel i p hp => exact leads_parent hp
  | refl i => rfl
  | symm i j _ ih => exact ih.symm
  | trans i j k _ _ ih ih' => exact ih.trans ih'

theorem Leads.le (hord : Ordered parent) (h : Leads parent i r) : r ≤ i := by
  obtain ⟨hpath, -⟩ := h
  induction hpath with
  | refl => exact Nat.le_refl i
  | tail _ hstep ih =>
      obtain ⟨q, hq, hparent⟩ := hord _ (List.getElem?_eq_some_iff.1 hstep).1
      rw [hstep, Option.some.injEq] at hparent
      rw [hparent]
      exact hq.trans ih

/-- A root is the least of its tree. -/
theorem Root.le (hord : Ordered parent) (hroot : Root parent r) (h : Same parent i r) : r ≤ i :=
  (h.leads.2 ⟨.refl, hroot⟩).le hord

/-! ### What is written -/

theorem Ordered.set (h : Ordered parent) {v q : ℕ} (hq : q ≤ v) : Ordered (parent.set v q) := by
  intro i hi
  rw [List.length_set] at hi
  rcases eq_or_ne v i with rfl | hne
  · exact ⟨q, hq, List.getElem?_set_self hi⟩
  · rw [List.getElem?_set_ne hne]
    exact h i hi

theorem root_set {v q : ℕ} (hv : ¬ Root parent v) (h : Root parent r) :
    Root (parent.set v q) r := by
  have hne : v ≠ r := by
    rintro rfl
    exact hv h
  rw [Root, List.getElem?_set_ne hne]
  exact h

/-- A parent that is replaced by its own keeps the trees. -/
theorem same_halve {v p grand : ℕ} (hp : parent[v]? = some p) (hgrand : parent[p]? = some grand)
    (hne : p ≠ v) : Same (parent.set v grand) = Same parent := by
  have hv := (List.getElem?_eq_some_iff.1 hp).1
  have hself : (parent.set v grand)[v]? = some grand := List.getElem?_set_self hv
  have hother : ∀ {i}, v ≠ i → (parent.set v grand)[i]? = parent[i]? := fun hi =>
    List.getElem?_set_ne hi
  funext i j
  apply propext
  constructor
  · apply eqvGen_lift
    intro i q hq
    rcases eq_or_ne v i with rfl | hi
    · rw [hself, Option.some.injEq] at hq
      rw [← hq]
      exact (same_of_parent hp).trans (same_of_parent hgrand)
    · rw [hother hi] at hq
      exact same_of_parent hq
  · apply eqvGen_lift
    intro i q hq
    rcases eq_or_ne v i with rfl | hi
    · rw [hp, Option.some.injEq] at hq
      rw [← hq]
      have hlast : (parent.set v grand)[p]? = some grand := (hother hne.symm).trans hgrand
      exact (same_of_parent hself).trans (same_of_parent hlast).symm
    · rw [← hother hi] at hq
      exact same_of_parent hq

/-- A root that is given a parent brings its tree with it. -/
theorem same_link {b a : ℕ} (hb : Root parent b) {u v : ℕ} : Same (parent.set b a) u v ↔
    Relation.EqvGen (fun i j => Same parent i j ∨ i = a ∧ j = b) u v := by
  have hlt := (List.getElem?_eq_some_iff.1 hb).1
  have hself : (parent.set b a)[b]? = some a := List.getElem?_set_self hlt
  have hother : ∀ {i}, b ≠ i → (parent.set b a)[i]? = parent[i]? := fun hi =>
    List.getElem?_set_ne hi
  have hkeeps : ∀ {i j}, Same parent i j → Same (parent.set b a) i j := by
    apply eqvGen_lift
    intro i q hq
    rcases eq_or_ne b i with rfl | hi
    · rw [show q = b from Option.some.inj (hq.symm.trans hb)]
      exact .refl b
    · rw [← hother hi] at hq
      exact same_of_parent hq
  constructor
  · apply eqvGen_lift
    intro i q hq
    rcases eq_or_ne b i with rfl | hi
    · rw [hself, Option.some.injEq] at hq
      exact .symm _ _ (.rel _ _ (Or.inr ⟨hq.symm, rfl⟩))
    · rw [hother hi] at hq
      exact .rel _ _ (Or.inl (same_of_parent hq))
  · apply eqvGen_lift
    rintro i j (hsame | ⟨rfl, rfl⟩)
    · exact hkeeps hsame
    · exact (same_of_parent hself).symm

end Forest

end Zu.Lib
