import Mathlib

/-!
# Comparisons

A comparison answers how any two values stand. What it takes of it to be an order is said of
three values at a time, so that it can be said of some values and not of others, and carries
over to pairs that are compared part by part and to lists that are compared item by item.
-/

namespace Zu.Lib

variable {α β : Type}

/-- No more than a value that is no more than a third is no more than the third, and is less
where either was less. -/
def Follows (cmp : α → α → Ordering) (a b c : α) : Prop :=
  cmp a b ≠ .gt → cmp b c ≠ .gt → cmp a c = (cmp a b).then (cmp b c)

theorem follows_of_transCmp {cmp : α → α → Ordering} [Std.TransCmp cmp] (a b c : α) :
    Follows cmp a b c := by
  intro hab hbc
  cases h : cmp a b with
  | gt => exact absurd h hab
  | eq =>
      rw [Std.TransCmp.congr_left h]
      rfl
  | lt =>
      cases h' : cmp b c with
      | gt => exact absurd h' hbc
      | eq => exact Std.TransCmp.lt_of_lt_of_eq h h'
      | lt => exact Std.TransCmp.lt_trans h h'

/-- A comparison by one part and then by another. -/
theorem then_follows {ab ab' bc bc' ac ac' : Ordering}
    (h : ab ≠ .gt → bc ≠ .gt → ac = ab.then bc)
    (h' : ab' ≠ .gt → bc' ≠ .gt → ac' = ab'.then bc') :
    ab.then ab' ≠ .gt → bc.then bc' ≠ .gt → ac.then ac' = (ab.then ab').then (bc.then bc') := by
  cases ab <;> cases bc <;> cases ab' <;> simp_all

/-! ### Lists -/

/-- Lists are compared item by item, and one that ends first is the lesser. -/
def lexOrder (cmp : α → β → Ordering) : List α → List β → Ordering
  | a :: as, b :: bs => (cmp a b).then (lexOrder cmp as bs)
  | as, bs => compare as.length bs.length

@[simp]
theorem lexOrder_nil_nil (cmp : α → β → Ordering) : lexOrder cmp [] [] = .eq := rfl

@[simp]
theorem lexOrder_nil_cons (cmp : α → β → Ordering) (b : β) (bs : List β) :
    lexOrder cmp [] (b :: bs) = .lt := by
  rw [lexOrder, Nat.compare_eq_lt]
  · exact Nat.succ_pos bs.length
  · simp

@[simp]
theorem lexOrder_cons_nil (cmp : α → β → Ordering) (a : α) (as : List α) :
    lexOrder cmp (a :: as) [] = .gt := by
  rw [lexOrder, Nat.compare_eq_gt]
  · exact Nat.succ_pos as.length
  · simp

@[simp]
theorem lexOrder_cons_cons (cmp : α → β → Ordering) (a : α) (as : List α) (b : β)
    (bs : List β) : lexOrder cmp (a :: as) (b :: bs) = (cmp a b).then (lexOrder cmp as bs) := rfl

theorem lexOrder_congr {cmp cmp' : α → β → Ordering} {as : List α} {bs : List β}
    (h : ∀ a ∈ as, ∀ b ∈ bs, cmp a b = cmp' a b) : lexOrder cmp as bs = lexOrder cmp' as bs := by
  induction as generalizing bs with
  | nil => cases bs <;> simp
  | cons a as ih =>
      cases bs with
      | nil => simp
      | cons b bs =>
          have hrest : lexOrder cmp as bs = lexOrder cmp' as bs := ih fun a ha b hb =>
            h a (List.mem_cons_of_mem _ ha) b (List.mem_cons_of_mem _ hb)
          simp [h a (by simp) b (by simp), hrest]

theorem lexOrder_map {α' β' : Type} (cmp : α' → β' → Ordering) (f : α → α') (f' : β → β')
    (as : List α) (bs : List β) :
    lexOrder cmp (as.map f) (bs.map f') = lexOrder (fun a b => cmp (f a) (f' b)) as bs := by
  induction as generalizing bs with
  | nil => cases bs <;> simp
  | cons a as ih => cases bs <;> simp [ih]

theorem lexOrder_swap {cmp : α → β → Ordering} {cmp' : β → α → Ordering} {as : List α}
    {bs : List β} (h : ∀ a ∈ as, ∀ b ∈ bs, cmp' b a = (cmp a b).swap) :
    lexOrder cmp' bs as = (lexOrder cmp as bs).swap := by
  induction as generalizing bs with
  | nil => cases bs <;> simp
  | cons a as ih =>
      cases bs with
      | nil => simp
      | cons b bs =>
          have hrest : lexOrder cmp' bs as = (lexOrder cmp as bs).swap := ih fun a ha b hb =>
            h a (List.mem_cons_of_mem _ ha) b (List.mem_cons_of_mem _ hb)
          simp [h a (by simp) b (by simp), hrest, Ordering.swap_then]

theorem lexOrder_follows {cmp : α → α → Ordering} {as bs cs : List α}
    (h : ∀ a ∈ as, ∀ b ∈ bs, ∀ c ∈ cs, Follows cmp a b c) : Follows (lexOrder cmp) as bs cs := by
  induction as generalizing bs cs with
  | nil => cases bs <;> cases cs <;> simp [Follows]
  | cons a as ih =>
      cases bs with
      | nil => cases cs <;> simp [Follows]
      | cons b bs =>
          cases cs with
          | nil => simp [Follows]
          | cons c cs =>
              have hrest : Follows (lexOrder cmp) as bs cs := ih fun a ha b hb c hc =>
                h a (List.mem_cons_of_mem _ ha) b (List.mem_cons_of_mem _ hb) c
                  (List.mem_cons_of_mem _ hc)
              exact then_follows (h a (by simp) b (by simp) c (by simp)) hrest

/-- Lists that compare equal are of one length, and their items compare equal. -/
theorem lexOrder_eq_eq {cmp : α → β → Ordering} {as : List α} {bs : List β} :
    lexOrder cmp as bs = .eq ↔ List.Forall₂ (fun a b => cmp a b = .eq) as bs := by
  induction as generalizing bs with
  | nil => cases bs <;> simp [List.forall₂_nil_left_iff]
  | cons a as ih => cases bs <;> simp [List.forall₂_nil_right_iff, Ordering.then_eq_eq, ih]

end Zu.Lib
