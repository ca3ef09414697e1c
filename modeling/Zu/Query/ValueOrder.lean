import Zu.Query.Value

/-!
# The order of values

The order answers every pair of values, the same way from either side. It is transitive, and
agrees with the equality, where the numbers of the values have an order themselves: numbers of
three types do not always, since a float is compared with what another number rounds to.
-/

namespace Zu.Query

open Lib Lib.Walks Common

theorem Float64.order_swap (x y : Float64) : y.order x = (x.order y).swap := by
  have h : compare y.place x.place = (compare x.place y.place).swap := Std.OrientedCmp.eq_swap
  rw [Float64.order, Float64.order]
  cases x.isNan <;> cases y.isNan <;> simp [h]

theorem Number.order_swap {toF64 : Decimal → Float64} (x y : Number) :
    y.order toF64 x = (x.order toF64 y).swap := by
  cases x <;> cases y <;> simp only [Number.order] <;>
    first
    | exact Std.OrientedCmp.eq_swap
    | exact Float64.order_swap _ _
    | exact Decimal.cmp_swap _ _

namespace Value

/-! ### The order by cases -/

section

variable {toF64 : Decimal → Float64}

theorem orderItems_eq (xs ys : List Value) :
    orderItems toF64 xs ys = lexOrder (order toF64) xs ys := by
  induction xs generalizing ys with
  | nil => rw [orderItems, lexOrder] <;> simp
  | cons x xs ih =>
      cases ys with
      | nil => rw [orderItems, lexOrder] <;> simp
      | cons y ys =>
          rw [orderItems, lexOrder, ih]
          cases order toF64 x y <;> rfl

/-- Fields are compared by their names and then by their values. -/
def fieldOrder (toF64 : Decimal → Float64) (f g : String × Value) : Ordering :=
  (compare f.1 g.1).then (order toF64 f.2 g.2)

theorem orderFields_eq (xs ys : List (String × Value)) :
    orderFields toF64 xs ys = lexOrder (fieldOrder toF64) xs ys := by
  induction xs generalizing ys with
  | nil => rw [orderFields, lexOrder] <;> simp
  | cons x xs ih =>
      cases ys with
      | nil => rw [orderFields, lexOrder] <;> simp
      | cons y ys =>
          obtain ⟨na, va⟩ := x
          obtain ⟨nb, vb⟩ := y
          rw [orderFields, lexOrder, ih, fieldOrder]
          cases (compare na nb).then (order toF64 va vb) <;> rfl

theorem order_of_chain {a b : Value} (h : a.isChain = true ∨ b.isChain = true) :
    order toF64 a b = order toF64 a.settle b.settle := by
  rw [order.eq_def, if_pos (by simpa using h)]

theorem order_of_rank {a b : Value} (ha : a.isChain = false) (hb : b.isChain = false)
    (h : a.rank ≠ b.rank) : order toF64 a b = compare a.rank b.rank := by
  rw [order.eq_def, if_neg (by simp [ha, hb])]
  split <;> first | rfl | exact absurd rfl h

/-- Two values of one rank, neither of them a chain. -/
inductive Alike : Value → Value → Prop
  | null : Alike null null
  | bool (x y : Bool) : Alike (bool x) (bool y)
  | num (x y : Number) : Alike (num x) (num y)
  | str (x y : String) : Alike (str x) (str y)
  | bytes (x y : Bytes) : Alike (bytes x) (bytes y)
  | node (x y : NodeAt) : Alike (node x) (node y)
  | rel (x y : Rel) : Alike (rel x) (rel y)
  | list (xs ys : List Value) : Alike (list xs) (list ys)
  | record (xs ys : List (String × Value)) : Alike (record xs) (record ys)
  | temporal (x y : Temporal) : Alike (temporal x) (temporal y)
  | path (xs ys : List Element) : Alike (path xs) (path ys)
  | graph (x ex y ey : ℕ) : Alike (graph x ex) (graph y ey)
  | bindingTable (x y : ℕ) : Alike (bindingTable x) (bindingTable y)

theorem alike_of_rank {a b : Value} (ha : a.isChain = false) (hb : b.isChain = false)
    (h : a.rank = b.rank) : Alike a b := by
  cases a <;> cases b <;> first
    | constructor
    | (simp [isChain] at ha; done)
    | (simp [isChain] at hb; done)
    | simp [rank] at h

section

variable (toF64)

@[simp]
theorem order_null : order toF64 null null = .eq := by
  rw [order.eq_def]
  rfl

@[simp]
theorem order_bool (x y : Bool) : order toF64 (bool x) (bool y) = compare x y := by
  rw [order.eq_def]
  rfl

@[simp]
theorem order_num (x y : Number) : order toF64 (num x) (num y) = x.order toF64 y := by
  rw [order.eq_def]
  rfl

@[simp]
theorem order_str (x y : String) : order toF64 (str x) (str y) = compare x y := by
  rw [order.eq_def]
  rfl

@[simp]
theorem order_bytes (x y : Bytes) : order toF64 (bytes x) (bytes y) = compare x y := by
  rw [order.eq_def]
  rfl

@[simp]
theorem order_temporal (x y : Temporal) : order toF64 (temporal x) (temporal y) =
    pairCmp compare compare (temporalKey x) (temporalKey y) := by
  rw [order.eq_def]
  rfl

@[simp]
theorem order_node (x y : NodeAt) :
    order toF64 (node x) (node y) = pairCmp compare compare x y := by
  rw [order.eq_def]
  rfl

/-- What an edge is compared by. -/
def relKey (r : Rel) : ℕ × ℕ × ℕ × ℕ := (r.table, r.src, r.dst, r.ord)

@[simp]
theorem order_rel (x y : Rel) : order toF64 (rel x) (rel y) =
    pairCmp compare (pairCmp compare (pairCmp compare compare)) (relKey x) (relKey y) := by
  rw [order.eq_def]
  rfl

@[simp]
theorem order_list (xs ys : List Value) :
    order toF64 (list xs) (list ys) = lexOrder (order toF64) xs ys := by
  rw [order.eq_def, ← orderItems_eq]
  rfl

@[simp]
theorem order_record (xs ys : List (String × Value)) :
    order toF64 (record xs) (record ys) = lexOrder (fieldOrder toF64) xs ys := by
  rw [order.eq_def, ← orderFields_eq]
  rfl

@[simp]
theorem order_path (xs ys : List Element) : order toF64 (path xs) (path ys) =
    lexOrder (fun x y => order toF64 x.value y.value) xs ys := by
  rw [order.eq_def, ← lexOrder_map, ← orderItems_eq]
  rfl

@[simp]
theorem order_graph (x ex y ey : ℕ) : order toF64 (graph x ex) (graph y ey) = compare x y := by
  rw [order.eq_def]
  rfl

@[simp]
theorem order_bindingTable (x y : ℕ) :
    order toF64 (bindingTable x) (bindingTable y) = compare x y := by
  rw [order.eq_def]
  rfl

end

/-! ### Values inside values -/

/-- The values a value is put together of. -/
def parts : Value → List Value
  | list items => items
  | record fields => fields.map Prod.snd
  | path elements => elements.map Element.value
  | _ => []

theorem weight_lt_of_mem_items {v : Value} {items : List Value} (h : v ∈ items) :
    v.weight < weightItems items + 1 := by
  induction items with
  | nil => cases h
  | cons item items ih =>
      rw [weightItems]
      obtain rfl | h := List.mem_cons.1 h
      · omega
      · have hlt := ih h
        omega

theorem weightFields_eq (fields : List (String × Value)) :
    weightFields fields = weightItems (fields.map Prod.snd) := by
  induction fields with
  | nil => rfl
  | cons f fields ih => simp [weightFields, weightItems, ih]

theorem weight_lt_of_mem_parts {u v : Value} (h : u ∈ v.parts) : u.weight < v.weight := by
  cases v with
  | list items => exact weight_lt_of_mem_items h
  | record fields =>
      rw [weight, weightFields_eq]
      exact weight_lt_of_mem_items h
  | path elements =>
      rw [weight, ← weightItems_elements]
      exact weight_lt_of_mem_items h
  | _ => cases h

/-- A value is another, or inside a part of it. -/
inductive Inside : Value → Value → Prop
  | self (v : Value) : Inside v v
  | part {u w v : Value} (hw : w ∈ v.parts) (h : Inside u w) : Inside u v

/-- The numbers of a value are among those given. -/
def Within (numbers : Set Number) (v : Value) : Prop := ∀ n, Inside (num n) v → n ∈ numbers

theorem Within.part {numbers : Set Number} {u v : Value} (h : Within numbers v)
    (hu : u ∈ v.parts) : Within numbers u := fun n hn => h n (Inside.part hu hn)

/-! ### Settling a value -/

theorem settleItems_eq (items : List Value) : settleItems items = items.map settle := by
  induction items with
  | nil => rfl
  | cons item items ih => simp [settleItems, ih]

theorem settleFields_eq (fields : List (String × Value)) :
    settleFields fields = fields.map fun f => (f.1, f.2.settle) := by
  induction fields with
  | nil => rfl
  | cons f fields ih => simp [settleFields, ih]

theorem rank_settle (v : Value) : v.settle.rank = v.rank := by
  cases v <;> simp [settle, rank]

theorem isChain_settle (v : Value) : v.settle.isChain = false := by
  cases v <;> simp [settle, isChain]

/-- Nothing settles to a number but itself, nor to a null. -/
theorem settle_eq_num {v : Value} {n : Number} (h : v.settle = num n) : v = num n := by
  cases v <;> simp_all [settle]

theorem settle_eq_null {v : Value} (h : v.settle = null) : v = null := by
  cases v <;> simp_all [settle]

theorem mem_parts_settle {u v : Value} (h : u ∈ v.settle.parts) :
    (∃ e : Element, u = e.value) ∨ ∃ w ∈ v.parts, u = w.settle := by
  cases v with
  | list items =>
      simp only [settle, settleItems_eq, parts, List.mem_map] at h
      obtain ⟨w, hw, rfl⟩ := h
      exact Or.inr ⟨w, hw, rfl⟩
  | record fields =>
      simp only [settle, settleFields_eq, parts, List.map_map, List.mem_map] at h
      obtain ⟨f, hf, rfl⟩ := h
      exact Or.inr ⟨f.2, List.mem_map_of_mem hf, rfl⟩
  | path elements =>
      obtain ⟨e, -, rfl⟩ := List.mem_map.1 h
      exact Or.inl ⟨e, rfl⟩
  | chain start link =>
      simp only [settle, parts, pathRels, List.mem_reverse, List.mem_map] at h
      obtain ⟨hop, -, rfl⟩ := h
      exact Or.inl ⟨.rel hop.1, rfl⟩
  | _ => cases h

theorem inside_element {u : Value} {e : Element} (h : Inside u e.value) : u = e.value := by
  cases h with
  | self => rfl
  | part hw => cases e <;> cases hw

theorem inside_settle {u v : Value} (h : Inside u v.settle) :
    (∃ e : Element, u = e.value) ∨ ∃ w, Inside w v ∧ u = w.settle := by
  induction hn : v.weight using Nat.strongRecOn generalizing v with
  | ind n ih =>
      subst hn
      cases h with
      | self => exact Or.inr ⟨v, Inside.self v, rfl⟩
      | part hw h =>
          obtain ⟨e, rfl⟩ | ⟨w, hw', rfl⟩ := mem_parts_settle hw
          · exact Or.inl ⟨e, inside_element h⟩
          · obtain helement | ⟨w', hin, rfl⟩ := ih _ (weight_lt_of_mem_parts hw') h rfl
            · exact Or.inl helement
            · exact Or.inr ⟨w', Inside.part hw' hin, rfl⟩

theorem Within.settle {numbers : Set Number} {v : Value} (h : Within numbers v) :
    Within numbers v.settle := by
  intro n hn
  obtain ⟨e, he⟩ | ⟨w, hin, hw⟩ := inside_settle hn
  · cases e <;> cases he
  · rw [settle_eq_num hw.symm] at hin
    exact h n hin

theorem order_settle (a b : Value) : order toF64 a.settle b.settle = order toF64 a b := by
  induction hn : a.weight + b.weight using Nat.strongRecOn generalizing a b with
  | ind n ih =>
      subst hn
      have hparts : ∀ x ∈ a.parts, ∀ y ∈ b.parts,
          order toF64 x.settle y.settle = order toF64 x y := fun x hx y hy =>
        ih _ (Nat.add_lt_add (weight_lt_of_mem_parts hx) (weight_lt_of_mem_parts hy)) x y rfl
      by_cases hchain : a.isChain = true ∨ b.isChain = true
      · exact (order_of_chain hchain).symm
      · rw [not_or, Bool.not_eq_true, Bool.not_eq_true] at hchain
        by_cases hrank : a.rank = b.rank
        · cases alike_of_rank hchain.1 hchain.2 hrank with
          | list xs ys =>
              simp only [settle, settleItems_eq, order_list, lexOrder_map]
              exact lexOrder_congr hparts
          | record xs ys =>
              simp only [settle, settleFields_eq, order_record, lexOrder_map]
              apply lexOrder_congr
              intro f hf f' hf'
              have hvalue := hparts f.2 (List.mem_map_of_mem hf) f'.2 (List.mem_map_of_mem hf')
              simp [fieldOrder, hvalue]
          | _ => simp [settle]
        · rw [order_of_rank hchain.1 hchain.2 hrank, order_of_rank (isChain_settle a)
            (isChain_settle b) (by rwa [rank_settle, rank_settle]), rank_settle, rank_settle]

/-! ### From either side -/

theorem order_swap (a b : Value) : order toF64 b a = (order toF64 a b).swap := by
  induction hn : a.weight + b.weight using Nat.strongRecOn generalizing a b with
  | ind n ih =>
      subst hn
      have hparts : ∀ x ∈ a.parts, ∀ y ∈ b.parts,
          order toF64 y x = (order toF64 x y).swap := fun x hx y hy =>
        ih _ (Nat.add_lt_add (weight_lt_of_mem_parts hx) (weight_lt_of_mem_parts hy)) x y rfl
      by_cases hchain : a.isChain = true ∨ b.isChain = true
      · rw [order_of_chain hchain, order_of_chain hchain.symm]
        refine ih _ ?_ _ _ rfl
        have ha := weight_settle_le a
        have hb := weight_settle_le b
        obtain h | h := hchain
        · have hlt := weight_settle_lt h
          omega
        · have hlt := weight_settle_lt h
          omega
      · rw [not_or, Bool.not_eq_true, Bool.not_eq_true] at hchain
        by_cases hrank : a.rank = b.rank
        · cases alike_of_rank hchain.1 hchain.2 hrank with
          | null => simp
          | num x y => simp [Number.order_swap x y]
          | list xs ys =>
              rw [order_list, order_list]
              exact lexOrder_swap hparts
          | record xs ys =>
              rw [order_record, order_record]
              apply lexOrder_swap
              intro f hf f' hf'
              have hvalue := hparts f.2 (List.mem_map_of_mem hf) f'.2 (List.mem_map_of_mem hf')
              have hname : compare f'.1 f.1 = (compare f.1 f'.1).swap := Std.OrientedCmp.eq_swap
              rw [fieldOrder, fieldOrder, Ordering.swap_then, hname, hvalue]
          | path xs ys =>
              rw [order_path, order_path]
              apply lexOrder_swap
              exact fun e he e' he' =>
                hparts e.value (List.mem_map_of_mem he) e'.value (List.mem_map_of_mem he')
          | bool x y => simpa using Std.OrientedCmp.eq_swap
          | str x y => simpa using Std.OrientedCmp.eq_swap
          | bytes x y => simpa using Std.OrientedCmp.eq_swap
          | node x y => simpa using Std.OrientedCmp.eq_swap
          | rel x y => simpa using Std.OrientedCmp.eq_swap
          | temporal x y => simpa using Std.OrientedCmp.eq_swap
          | graph x ex y ey => simpa using Std.OrientedCmp.eq_swap
          | bindingTable x y => simpa using Std.OrientedCmp.eq_swap
        · rw [order_of_rank hchain.1 hchain.2 hrank,
            order_of_rank hchain.2 hchain.1 (Ne.symm hrank)]
          exact Std.OrientedCmp.eq_swap

theorem order_self (a : Value) : order toF64 a a = .eq := by
  have h : order toF64 a a = (order toF64 a a).swap := order_swap a a
  cases horder : order toF64 a a <;> simp_all

/-! ### Three in a row -/

theorem order_of_rank_lt {a b : Value} (ha : a.isChain = false) (hb : b.isChain = false)
    (h : a.rank < b.rank) : order toF64 a b = .lt := by
  rw [order_of_rank ha hb h.ne, Nat.compare_eq_lt]
  exact h

theorem rank_le_of_order {a b : Value} (ha : a.isChain = false) (hb : b.isChain = false)
    (h : order toF64 a b ≠ .gt) : a.rank ≤ b.rank := by
  by_contra hlt
  rw [order_swap, order_of_rank_lt hb ha (Nat.lt_of_not_le hlt)] at h
  exact h rfl

/-- Three values of one rank compare in a row where their parts do. -/
theorem alike_follows {numbers : Set Number}
    (hnumbers : ∀ x ∈ numbers, ∀ y ∈ numbers, ∀ z ∈ numbers, Follows (Number.order toF64) x y z)
    {a b c : Value} (ha : Within numbers a) (hb : Within numbers b) (hc : Within numbers c)
    (hparts : ∀ x ∈ a.parts, ∀ y ∈ b.parts, ∀ z ∈ c.parts, Follows (order toF64) x y z)
    (hab : Alike a b) (hbc : Alike b c) : Follows (order toF64) a b c := by
  cases hab with
  | null =>
      cases hbc with
      | null => simp [Follows]
  | num x y =>
      cases hbc with
      | num _ z =>
          simpa [Follows] using hnumbers x (ha x (Inside.self _)) y (hb y (Inside.self _)) z
            (hc z (Inside.self _))
  | list xs ys =>
      cases hbc with
      | list _ zs =>
          have h : Follows (lexOrder (order toF64)) xs ys zs := lexOrder_follows hparts
          simpa [Follows] using h
  | record xs ys =>
      cases hbc with
      | record _ zs =>
          have h : Follows (lexOrder (fieldOrder toF64)) xs ys zs := by
            apply lexOrder_follows
            intro f hf f' hf' f'' hf''
            exact then_follows (follows_of_transCmp f.1 f'.1 f''.1)
              (hparts f.2 (List.mem_map_of_mem hf) f'.2 (List.mem_map_of_mem hf') f''.2
                (List.mem_map_of_mem hf''))
          simpa [Follows] using h
  | path xs ys =>
      cases hbc with
      | path _ zs =>
          have h : Follows (lexOrder fun x y : Element => order toF64 x.value y.value) xs ys zs := by
            apply lexOrder_follows
            intro e he e' he' e'' he''
            exact hparts e.value (List.mem_map_of_mem he) e'.value (List.mem_map_of_mem he')
              e''.value (List.mem_map_of_mem he'')
          simpa [Follows] using h
  | bool x y =>
      cases hbc with
      | bool _ z => simpa [Follows] using @follows_of_transCmp Bool compare _ x y z
  | str x y =>
      cases hbc with
      | str _ z => simpa [Follows] using @follows_of_transCmp String compare _ x y z
  | bytes x y =>
      cases hbc with
      | bytes _ z => simpa [Follows] using @follows_of_transCmp Bytes compare _ x y z
  | node x y =>
      cases hbc with
      | node _ z =>
          simpa [Follows] using @follows_of_transCmp NodeAt (pairCmp compare compare) _ x y z
  | rel x y =>
      cases hbc with
      | rel _ z =>
          have h := @follows_of_transCmp _ (pairCmp compare (pairCmp compare
            (pairCmp compare compare))) _ (relKey x) (relKey y) (relKey z)
          simpa [Follows] using h
  | temporal x y =>
      cases hbc with
      | temporal _ z =>
          have h := @follows_of_transCmp _ (pairCmp compare compare) _ (temporalKey x)
            (temporalKey y) (temporalKey z)
          simpa [Follows] using h
  | graph x ex y ey =>
      cases hbc with
      | graph _ _ z ez => simpa [Follows] using @follows_of_transCmp ℕ compare _ x y z
  | bindingTable x y =>
      cases hbc with
      | bindingTable _ z => simpa [Follows] using @follows_of_transCmp ℕ compare _ x y z

/-- Three values compare in a row where their numbers do. -/
theorem order_follows {numbers : Set Number}
    (hnumbers : ∀ x ∈ numbers, ∀ y ∈ numbers, ∀ z ∈ numbers, Follows (Number.order toF64) x y z)
    {a b c : Value} (ha : Within numbers a) (hb : Within numbers b) (hc : Within numbers c) :
    Follows (order toF64) a b c := by
  induction hn : a.weight + b.weight + c.weight using Nat.strongRecOn generalizing a b c with
  | ind n ih =>
      subst hn
      have hparts : ∀ x ∈ a.parts, ∀ y ∈ b.parts, ∀ z ∈ c.parts, Follows (order toF64) x y z := by
        intro x hx y hy z hz
        exact ih _ (Nat.add_lt_add (Nat.add_lt_add (weight_lt_of_mem_parts hx)
          (weight_lt_of_mem_parts hy)) (weight_lt_of_mem_parts hz)) (ha.part hx) (hb.part hy)
          (hc.part hz) rfl
      by_cases hchain : a.isChain = true ∨ b.isChain = true ∨ c.isChain = true
      · have hsettled : Follows (order toF64) a.settle b.settle c.settle := by
          refine ih _ ?_ ha.settle hb.settle hc.settle rfl
          have ha := weight_settle_le a
          have hb := weight_settle_le b
          have hc := weight_settle_le c
          obtain h | h | h := hchain
          · have hlt := weight_settle_lt h
            omega
          · have hlt := weight_settle_lt h
            omega
          · have hlt := weight_settle_lt h
            omega
        rw [Follows, order_settle, order_settle, order_settle] at hsettled
        exact hsettled
      · simp only [not_or, Bool.not_eq_true] at hchain
        obtain ⟨hca, hcb, hcc⟩ := hchain
        intro hab hbc
        obtain hlt | hrank := Nat.lt_or_eq_of_le (rank_le_of_order hca hcb hab)
        · have hac := hlt.trans_le (rank_le_of_order hcb hcc hbc)
          rw [order_of_rank_lt hca hcb hlt, order_of_rank_lt hca hcc hac]
          rfl
        · obtain hlt | hrank' := Nat.lt_or_eq_of_le (rank_le_of_order hcb hcc hbc)
          · have hac : a.rank < c.rank := hrank.trans_lt hlt
            rw [order_of_rank_lt hcb hcc hlt, order_of_rank_lt hca hcc hac]
            cases horder : order toF64 a b <;> simp_all
          · refine alike_follows hnumbers ha hb hc hparts (alike_of_rank hca hcb hrank)
              (alike_of_rank hcb hcc hrank') hab hbc

end

end Value

/-! ### Numbers of three types -/

section

variable {toF64 : Decimal → Float64} {numbers : Set Number}

def Number.exact : Number → Option Decimal
  | .int n h => some (ofWord n h)
  | .float _ => none
  | .decimal d => some d

def Number.approx (toF64 : Decimal → Float64) : Number → Float64
  | .int n _ => Float64.ofInt n
  | .float x => x
  | .decimal d => toF64 d

theorem approx_float (x : Float64) : (Number.float x).approx toF64 = x := rfl

theorem cmp_ofWord {m n : ℤ} (hm : Fits 64 m) (hn : Fits 64 n) :
    (Number.ofWord m hm).cmp (Number.ofWord n hn) = compare m n := by
  simp [Decimal.cmp, Decimal.align, Decimal.rescale, Number.ofWord]

theorem order_of_exact {x y : Number} {a b : Decimal} (hx : x.exact = some a)
    (hy : y.exact = some b) : x.order toF64 y = a.cmp b := by
  cases x <;> cases y <;> simp_all [Number.exact, Number.order]
  all_goals
    obtain rfl := hx
    obtain rfl := hy
    exact (cmp_ofWord _ _).symm

theorem order_of_approx {x y : Number} (h : x.exact = none ∨ y.exact = none) :
    x.order toF64 y = (x.approx toF64).order (y.approx toF64) := by
  cases x <;> cases y <;> simp_all [Number.exact, Number.approx, Number.order]

theorem Float64.order_follows (x y z : Float64) : Follows Float64.order x y z := by
  have h := @follows_of_transCmp ℤ compare _ x.place y.place z.place
  rw [Follows, Float64.order, Float64.order, Float64.order]
  cases x.isNan <;> cases y.isNan <;> cases z.isNan <;> simp_all [Follows]
  cases compare x.place y.place <;> simp

/-- The exact numbers given have one order, and no float among them stands between two of them
where they round to it the other way around. -/
structure Straight (toF64 : Decimal → Float64) (numbers : Set Number) : Prop where
  tied : ∀ x ∈ numbers, ∀ y ∈ numbers, ∀ z ∈ numbers, ∀ a b c, x.exact = some a →
    y.exact = some b → z.exact = some c → a.Tied b →
      (a.Less c ↔ b.Less c) ∧ (c.Less a ↔ c.Less b)
  rounded : ∀ x ∈ numbers, ∀ y ∈ numbers, ∀ a b, x.exact = some a → y.exact = some b → a.Tied b →
    ∀ f, .float f ∈ numbers → (x.approx toF64).order f = (y.approx toF64).order f
  between : ∀ x ∈ numbers, ∀ y ∈ numbers, ∀ a b, x.exact = some a → y.exact = some b → a.Less b →
    ∀ f, .float f ∈ numbers →
      ¬ ((y.approx toF64).order f ≠ .gt ∧ f.order (x.approx toF64) ≠ .gt)

theorem eq_float_of_exact {x : Number} (h : x.exact = none) : ∃ f, x = .float f := by
  cases x <;> simp_all [Number.exact]

/-- The decimals are written with no more digits than they can be. -/
def Scaled (numbers : Set Number) : Prop :=
  ∀ x ∈ numbers, ∀ d, x.exact = some d → d.scale ≤ maxDigits

section

variable (h : Straight toF64 numbers) (hscaled : Scaled numbers) {x y z : Number}
  (hx : x ∈ numbers) (hy : y ∈ numbers) (hz : z ∈ numbers) {a b c : Decimal}
include h hscaled hx hy hz

theorem Straight.float_last (hxa : x.exact = some a) (hyb : y.exact = some b)
    (hzf : z.exact = none) : Follows (Number.order toF64) x y z := by
  obtain ⟨f, rfl⟩ := eq_float_of_exact hzf
  intro hxy hyz
  rw [order_of_exact hxa hyb] at hxy ⊢
  rw [order_of_approx (Or.inr hzf)] at hyz ⊢
  rw [order_of_approx (Or.inr hzf)]
  cases hab : a.cmp b with
  | gt => exact absurd hab hxy
  | eq =>
      rw [Decimal.cmp_eq_eq (hscaled x hx a hxa) (hscaled y hy b hyb)] at hab
      exact h.rounded x hx y hy a b hxa hyb hab f hz
  | lt =>
      rw [Decimal.cmp_eq_lt (hscaled x hx a hxa) (hscaled y hy b hyb)] at hab
      have hbetween := h.between x hx y hy a b hxa hyb hab f hz
      have hswap := Float64.order_swap (x.approx toF64) f
      simp only [approx_float] at hyz ⊢
      cases horder : (x.approx toF64).order f <;> simp_all

theorem Straight.float_first (hxf : x.exact = none) (hyb : y.exact = some b)
    (hzc : z.exact = some c) : Follows (Number.order toF64) x y z := by
  obtain ⟨f, rfl⟩ := eq_float_of_exact hxf
  intro hxy hyz
  rw [order_of_exact hyb hzc] at hyz ⊢
  rw [order_of_approx (Or.inl hxf)] at hxy ⊢
  rw [order_of_approx (Or.inl hxf)]
  simp only [approx_float] at hxy ⊢
  have hswap := Float64.order_swap (y.approx toF64) f
  have hswap' := Float64.order_swap (z.approx toF64) f
  cases hbc : b.cmp c with
  | gt => exact absurd hbc hyz
  | eq =>
      rw [Decimal.cmp_eq_eq (hscaled y hy b hyb) (hscaled z hz c hzc)] at hbc
      have hrounded := h.rounded y hy z hz b c hyb hzc hbc f hx
      rw [hswap, hswap', hrounded]
      cases (z.approx toF64).order f <;> rfl
  | lt =>
      rw [Decimal.cmp_eq_lt (hscaled y hy b hyb) (hscaled z hz c hzc)] at hbc
      have hbetween := h.between y hy z hz b c hyb hzc hbc f hx
      cases horder : (z.approx toF64).order f <;> cases horder' : (y.approx toF64).order f <;>
        simp_all

theorem Straight.float_mid (hxa : x.exact = some a) (hyf : y.exact = none)
    (hzc : z.exact = some c) : Follows (Number.order toF64) x y z := by
  obtain ⟨f, rfl⟩ := eq_float_of_exact hyf
  intro hxy hyz
  rw [order_of_approx (Or.inr hyf)] at hxy ⊢
  rw [order_of_approx (Or.inl hyf)] at hyz ⊢
  rw [order_of_exact hxa hzc]
  simp only [approx_float] at hxy hyz ⊢
  have hswap := Float64.order_swap (z.approx toF64) f
  have hswap' := Float64.order_swap (x.approx toF64) f
  cases hac : a.cmp c with
  | eq =>
      rw [Decimal.cmp_eq_eq (hscaled x hx a hxa) (hscaled z hz c hzc)] at hac
      have hrounded := h.rounded x hx z hz a c hxa hzc hac f hy
      rw [hrounded] at hxy ⊢
      rw [hswap] at hyz ⊢
      generalize (z.approx toF64).order f = o at hxy hyz ⊢
      cases o <;> simp_all
  | lt =>
      rw [Decimal.cmp_eq_lt (hscaled x hx a hxa) (hscaled z hz c hzc)] at hac
      have hbetween := h.between x hx z hz a c hxa hzc hac f hy
      cases horder : (x.approx toF64).order f <;> cases horder' : (z.approx toF64).order f <;>
        simp_all
  | gt =>
      rw [← Ordering.swap_eq_lt, ← Decimal.cmp_swap,
        Decimal.cmp_eq_lt (hscaled z hz c hzc) (hscaled x hx a hxa)] at hac
      exact absurd ⟨hxy, hyz⟩ (h.between z hz x hx c a hzc hxa hac f hy)

theorem Straight.exact (hxa : x.exact = some a) (hyb : y.exact = some b)
    (hzc : z.exact = some c) : Follows (Number.order toF64) x y z := by
  have hsa := hscaled x hx a hxa
  have hsb := hscaled y hy b hyb
  have hsc := hscaled z hz c hzc
  intro hxy hyz
  rw [order_of_exact hxa hyb] at hxy ⊢
  rw [order_of_exact hyb hzc] at hyz ⊢
  rw [order_of_exact hxa hzc]
  cases hab : a.cmp b with
  | gt => exact absurd hab hxy
  | eq =>
      rw [Decimal.cmp_eq_eq hsa hsb] at hab
      obtain ⟨hless, hmore⟩ := h.tied x hx y hy z hz a b c hxa hyb hzc hab
      rw [← Decimal.cmp_eq_lt hsa hsc, ← Decimal.cmp_eq_lt hsb hsc] at hless
      rw [← Decimal.cmp_eq_lt hsc hsa, ← Decimal.cmp_eq_lt hsc hsb, Decimal.cmp_swap a,
        Decimal.cmp_swap b, Ordering.swap_eq_lt, Ordering.swap_eq_lt] at hmore
      cases hbc : b.cmp c <;> cases hac : a.cmp c <;> simp_all
  | lt =>
      rw [Decimal.cmp_eq_lt hsa hsb] at hab
      cases hbc : b.cmp c with
      | gt => exact absurd hbc hyz
      | eq =>
          rw [Decimal.cmp_eq_eq hsb hsc] at hbc
          obtain ⟨-, hmore⟩ := h.tied y hy z hz x hx b c a hyb hzc hxa hbc
          exact (Decimal.cmp_eq_lt hsa hsc).2 (hmore.1 hab)
      | lt =>
          rw [Decimal.cmp_eq_lt hsb hsc] at hbc
          refine (Decimal.cmp_eq_lt hsa hsc).2 ⟨hab.1.trans hbc.1, fun hblur => ?_⟩
          -- What is tied to the one end cannot be less than what is less than it.
          obtain ⟨hless, -⟩ := h.tied x hx z hz y hy a c b hxa hzc hyb (Or.inr hblur)
          exact absurd (hless.1 hab).1 (not_lt.2 hbc.1.le)

end

theorem Straight.follows (h : Straight toF64 numbers) (hscaled : Scaled numbers) {x y z : Number}
    (hx : x ∈ numbers) (hy : y ∈ numbers) (hz : z ∈ numbers) :
    Follows (Number.order toF64) x y z := by
  -- Where two of them are floats, the third counts as one.
  have hfloats : ∀ {x y z : Number}, (x.exact = none ∨ y.exact = none) →
      (y.exact = none ∨ z.exact = none) → (x.exact = none ∨ z.exact = none) →
      Follows (Number.order toF64) x y z := by
    intro x y z hxy hyz hxz
    rw [Follows, order_of_approx hxy, order_of_approx hyz, order_of_approx hxz]
    exact Float64.order_follows _ _ _
  cases hxe : x.exact with
  | none =>
      cases hye : y.exact with
      | none => exact hfloats (Or.inl hxe) (Or.inl hye) (Or.inl hxe)
      | some b =>
          cases hze : z.exact with
          | none => exact hfloats (Or.inl hxe) (Or.inr hze) (Or.inl hxe)
          | some c => exact h.float_first hscaled hx hy hz hxe hye hze
  | some a =>
      cases hye : y.exact with
      | none =>
          cases hze : z.exact with
          | none => exact hfloats (Or.inr hye) (Or.inl hye) (Or.inr hze)
          | some c => exact h.float_mid hscaled hx hy hz hxe hye hze
      | some b =>
          cases hze : z.exact with
          | none => exact h.float_last hscaled hx hy hz hxe hye hze
          | some c => exact h.exact hscaled hx hy hz hxe hye hze

theorem straight_of_trans (hscaled : Scaled numbers)
    (htrans : ∀ x ∈ numbers, ∀ y ∈ numbers, ∀ z ∈ numbers, x.order toF64 y ≠ .gt →
      y.order toF64 z ≠ .gt → x.order toF64 z ≠ .gt) : Straight toF64 numbers := by
  have hcongr : ∀ x ∈ numbers, ∀ y ∈ numbers, ∀ z ∈ numbers, x.order toF64 y = .eq →
      x.order toF64 z = y.order toF64 z := by
    intro x hx y hy z hz hxy
    have hyx : y.order toF64 x = .eq := by rw [Number.order_swap, hxy]; rfl
    have h₁ := htrans z hz x hx y hy
    have h₂ := htrans z hz y hy x hx
    have h₃ := htrans x hx y hy z hz
    have h₄ := htrans y hy x hx z hz
    rw [Number.order_swap x z, Number.order_swap y z] at h₁ h₂
    cases hxz : x.order toF64 z <;> cases hyz : y.order toF64 z <;> simp_all
  constructor
  · intro x hx y hy z hz a b c hxa hyb hzc htied
    rw [← Decimal.cmp_eq_eq (hscaled x hx a hxa) (hscaled y hy b hyb), ← order_of_exact hxa hyb]
      at htied
    have hsame := hcongr x hx y hy z hz htied
    rw [order_of_exact hxa hzc, order_of_exact hyb hzc] at hsame
    have hsc := hscaled z hz c hzc
    rw [← Decimal.cmp_eq_lt (hscaled x hx a hxa) hsc, ← Decimal.cmp_eq_lt (hscaled y hy b hyb) hsc,
      ← Decimal.cmp_eq_lt hsc (hscaled x hx a hxa), ← Decimal.cmp_eq_lt hsc (hscaled y hy b hyb),
      Decimal.cmp_swap a, Decimal.cmp_swap b, hsame]
    exact ⟨Iff.rfl, Iff.rfl⟩
  · intro x hx y hy a b hxa hyb htied f hf
    rw [← Decimal.cmp_eq_eq (hscaled x hx a hxa) (hscaled y hy b hyb), ← order_of_exact hxa hyb]
      at htied
    have hsame := hcongr x hx y hy _ hf htied
    rw [order_of_approx (Or.inr rfl), order_of_approx (Or.inr rfl)] at hsame
    exact hsame
  · rintro x hx y hy a b hxa hyb hless f hf ⟨hyf, hfx⟩
    have hyx := htrans y hy _ hf x hx
    rw [order_of_approx (Or.inr rfl), order_of_approx (Or.inl rfl), Number.order_swap x y,
      order_of_exact hxa hyb,
      (Decimal.cmp_eq_lt (hscaled x hx a hxa) (hscaled y hy b hyb)).2 hless] at hyx
    exact hyx hyf hfx rfl

end

/-! ### The equality -/

theorem Float64.eq_eq {x y : Float64} (h : x.isNan = false ∨ y.isNan = false) :
    x.eq y = decide (x.order y = .eq) := by
  rw [Float64.eq, Float64.order]
  cases hx : x.isNan <;> cases hy : y.isNan <;> simp_all

theorem Number.eq_eq {toF64 : Decimal → Float64} {x y : Number}
    (hx : ∀ f, x = .float f → f.isNan = false) (hy : ∀ f, y = .float f → f.isNan = false) :
    x.eq toF64 y = decide (x.order toF64 y = .eq) := by
  rw [Bool.eq_iff_iff, decide_eq_true_eq]
  cases x <;> cases y <;> simp_all [Number.eq, Number.order, Float64.eq_eq]

namespace Value

section

variable {toF64 : Decimal → Float64}

/-- Neither a null nor what is not a number is in the value. -/
def Whole (v : Value) : Prop :=
  ¬ Inside null v ∧ ∀ x : Float64, x.isNan = true → ¬ Inside (num (.float x)) v

def Settled (v : Value) : Prop := ∀ u, Inside u v → u.isChain = false

theorem Whole.part {u v : Value} (h : Whole v) (hu : u ∈ v.parts) : Whole u :=
  ⟨fun hin => h.1 (Inside.part hu hin), fun x hx hin => h.2 x hx (Inside.part hu hin)⟩

theorem Settled.part {u v : Value} (h : Settled v) (hu : u ∈ v.parts) : Settled u :=
  fun w hw => h w (Inside.part hu hw)

theorem Whole.settle {v : Value} (h : Whole v) : Whole v.settle := by
  constructor
  · intro hin
    obtain ⟨e, he⟩ | ⟨w, hw, heq⟩ := inside_settle hin
    · cases e <;> cases he
    · rw [settle_eq_null heq.symm] at hw
      exact h.1 hw
  · intro x hx hin
    obtain ⟨e, he⟩ | ⟨w, hw, heq⟩ := inside_settle hin
    · cases e <;> cases he
    · rw [settle_eq_num heq.symm] at hw
      exact h.2 x hx hw

theorem settled_settle (v : Value) : Settled v.settle := by
  intro u hu
  obtain ⟨e, rfl⟩ | ⟨w, -, rfl⟩ := inside_settle hu
  · cases e <;> rfl
  · exact isChain_settle w

/-- The equality answers whether the two compare equal. -/
def Agrees (toF64 : Decimal → Float64) (a b : Value) : Prop :=
  ∀ r, cmpEq toF64 a b = .ok r → r = some (decide (order toF64 a b = .eq))

theorem cmpEqItems_agrees {xs ys : List Value} (hlen : xs.length = ys.length)
    (h : ∀ x ∈ xs, ∀ y ∈ ys, Agrees toF64 x y) {r : Option Bool}
    (hr : cmpEqItems toF64 xs ys false = .ok r) :
    r = some (decide (lexOrder (order toF64) xs ys = .eq)) := by
  induction xs generalizing ys with
  | nil =>
      obtain rfl := List.length_eq_zero_iff.1 hlen.symm
      cases hr
      rfl
  | cons x xs ih =>
      cases ys with
      | nil => cases hlen
      | cons y ys =>
          rw [cmpEqItems] at hr
          obtain ⟨b, hb, hr⟩ := except_bind_ok.1 hr
          have hfirst := h x (by simp) y (by simp) b hb
          subst hfirst
          rw [lexOrder_cons_cons]
          by_cases heq : order toF64 x y = .eq
          · rw [decide_eq_true heq] at hr
            rw [heq]
            exact ih (Nat.succ.inj hlen) (fun x hx y hy =>
              h x (List.mem_cons_of_mem _ hx) y (List.mem_cons_of_mem _ hy)) hr
          · rw [decide_eq_false heq] at hr
            cases hr
            simp [Ordering.then_eq_eq, heq]

theorem cmpEqFields_agrees {xs ys : List (String × Value)}
    (hnames : xs.map Prod.fst = ys.map Prod.fst)
    (h : ∀ x ∈ xs, ∀ y ∈ ys, Agrees toF64 x.2 y.2) {r : Option Bool}
    (hr : cmpEqFields toF64 xs ys false = .ok r) :
    r = some (decide (lexOrder (fieldOrder toF64) xs ys = .eq)) := by
  induction xs generalizing ys with
  | nil =>
      obtain rfl := List.map_eq_nil_iff.1 hnames.symm
      cases hr
      rfl
  | cons x xs ih =>
      cases ys with
      | nil => cases hnames
      | cons y ys =>
          obtain ⟨hname, hnames⟩ := List.cons.inj hnames
          rw [cmpEqFields] at hr
          obtain ⟨b, hb, hr⟩ := except_bind_ok.1 hr
          have hfirst := h x (by simp) y (by simp) b hb
          subst hfirst
          have hfield : fieldOrder toF64 x y = order toF64 x.2 y.2 := by
            have hself : compare y.1 y.1 = .eq := Std.ReflCmp.compare_self
            rw [fieldOrder, hname, hself]
            rfl
          rw [lexOrder_cons_cons, hfield]
          by_cases heq : order toF64 x.2 y.2 = .eq
          · rw [decide_eq_true heq] at hr
            rw [heq]
            exact ih hnames (fun x hx y hy =>
              h x (List.mem_cons_of_mem _ hx) y (List.mem_cons_of_mem _ hy)) hr
          · rw [decide_eq_false heq] at hr
            cases hr
            simp [Ordering.then_eq_eq, heq]

theorem cmpEq_of_rank {a b : Value} (ha : a ≠ null) (hb : b ≠ null) (h : a.rank ≠ b.rank) :
    cmpEq toF64 a b = .ok (some false) := by
  rw [cmpEq.eq_def]
  split <;> first | rfl | exact absurd rfl h | exact absurd rfl ha | exact absurd rfl hb

theorem temporalKey_eq (x y : Temporal) :
    sameInstant x y = decide (temporalKey x = temporalKey y) := by
  rw [Bool.eq_iff_iff, decide_eq_true_eq]
  cases x with
  | duration kind n =>
      cases y with
      | duration kind' n' => cases kind <;> cases kind' <;> simp [sameInstant, temporalKey]
      | _ => cases kind <;> simp [sameInstant, temporalKey]
  | _ =>
      cases y with
      | duration kind' n' => cases kind' <;> simp [sameInstant, temporalKey]
      | _ => simp [sameInstant, temporalKey]

theorem relKey_inj {x y : Rel} : relKey x = relKey y ↔ x = y := by
  cases x
  cases y
  simp [relKey]

theorem element_eq (toF64 : Decimal → Float64) (x y : Element) :
    x.eq y = decide (order toF64 x.value y.value = .eq) := by
  rw [Bool.eq_iff_iff, decide_eq_true_eq]
  cases x with
  | node v =>
      cases y with
      | node w => simp [Element.eq, Element.value, Std.LawfulEqCmp.compare_eq_iff_eq]
      | rel r =>
          rw [Element.value, Element.value, order_of_rank rfl rfl (by simp [rank])]
          simp [Element.eq, rank]
  | rel r =>
      cases y with
      | node w =>
          rw [Element.value, Element.value, order_of_rank rfl rfl (by simp [rank])]
          simp [Element.eq, rank]
      | rel r' => simp [Element.eq, Element.value, Std.LawfulEqCmp.compare_eq_iff_eq, relKey_inj]

/-- Paths are equal where they are of one length and equal element by element. -/
theorem path_eq (toF64 : Decimal → Float64) {xs ys : List Element} (hlen : xs.length = ys.length) :
    ((xs.zip ys).all fun p => p.1.eq p.2) =
      decide (lexOrder (fun x y => order toF64 x.value y.value) xs ys = .eq) := by
  induction xs generalizing ys with
  | nil =>
      obtain rfl := List.length_eq_zero_iff.1 hlen.symm
      rfl
  | cons x xs ih =>
      cases ys with
      | nil => cases hlen
      | cons y ys =>
          rw [List.zip_cons_cons, List.all_cons, ih (Nat.succ.inj hlen), element_eq toF64,
            lexOrder_cons_cons, Bool.eq_iff_iff]
          simp [Ordering.then_eq_eq]

theorem agrees_of_whole {a b : Value} (hsa : Settled a) (hsb : Settled b) (ha : Whole a)
    (hb : Whole b) : Agrees toF64 a b := by
  induction hn : a.weight + b.weight using Nat.strongRecOn generalizing a b with
  | ind n ih =>
      subst hn
      intro r hr
      have hparts : ∀ x ∈ a.parts, ∀ y ∈ b.parts, Agrees toF64 x y := fun x hx y hy =>
        ih _ (Nat.add_lt_add (weight_lt_of_mem_parts hx) (weight_lt_of_mem_parts hy)) (hsa.part hx)
          (hsb.part hy) (ha.part hx) (hb.part hy) rfl
      have hna : a ≠ null := by
        rintro rfl
        exact ha.1 (Inside.self _)
      have hnb : b ≠ null := by
        rintro rfl
        exact hb.1 (Inside.self _)
      have hca := hsa a (Inside.self a)
      have hcb := hsb b (Inside.self b)
      by_cases hrank : a.rank = b.rank
      · cases alike_of_rank hca hcb hrank with
        | null => exact absurd rfl hna
        | num x y =>
            rw [cmpEq] at hr
            cases hr
            rw [order_num, Number.eq_eq]
            · rintro f rfl
              rw [← Bool.not_eq_true]
              exact fun hnan => ha.2 f hnan (Inside.self _)
            · rintro f rfl
              rw [← Bool.not_eq_true]
              exact fun hnan => hb.2 f hnan (Inside.self _)
        | list xs ys =>
            rw [cmpEq] at hr
            rw [order_list]
            split at hr
            case isTrue hlen =>
              cases hr
              have hne : lexOrder (order toF64) xs ys ≠ .eq := fun heq =>
                hlen (lexOrder_eq_eq.1 heq).length_eq
              rw [decide_eq_false hne]
            case isFalse hlen => exact cmpEqItems_agrees (not_not.1 hlen) hparts hr
        | record xs ys =>
            rw [cmpEq] at hr
            rw [order_record]
            split at hr
            case isTrue => cases hr
            case isFalse hsame =>
              refine cmpEqFields_agrees ?_ (fun f hf f' hf' => ?_) hr
              · simpa [sameFields] using hsame
              · exact hparts f.2 (List.mem_map_of_mem hf) f'.2 (List.mem_map_of_mem hf')
        | path xs ys =>
            rw [cmpEq] at hr
            rw [order_path]
            split at hr
            case isTrue hlen =>
              cases hr
              have hne : lexOrder (fun x y => order toF64 x.value y.value) xs ys ≠ .eq :=
                fun heq => hlen (lexOrder_eq_eq.1 heq).length_eq
              rw [decide_eq_false hne]
            case isFalse hlen =>
              cases hr
              rw [path_eq toF64 (not_not.1 hlen)]
        | temporal x y =>
            rw [cmpEq] at hr
            cases hr
            rw [order_temporal, temporalKey_eq]
            simp [Std.LawfulEqCmp.compare_eq_iff_eq]
        | rel x y =>
            rw [cmpEq] at hr
            cases hr
            rw [order_rel]
            simp [Std.LawfulEqCmp.compare_eq_iff_eq, relKey_inj]
        | bool x y =>
            rw [cmpEq] at hr
            cases hr
            simp [Std.LawfulEqCmp.compare_eq_iff_eq]
        | str x y =>
            rw [cmpEq] at hr
            cases hr
            simp [Std.LawfulEqCmp.compare_eq_iff_eq]
        | bytes x y =>
            rw [cmpEq] at hr
            cases hr
            simp [Std.LawfulEqCmp.compare_eq_iff_eq]
        | node x y =>
            rw [cmpEq] at hr
            cases hr
            simp [Std.LawfulEqCmp.compare_eq_iff_eq]
        | graph x ex y ey =>
            rw [cmpEq] at hr
            cases hr
            simp [Std.LawfulEqCmp.compare_eq_iff_eq]
        | bindingTable x y =>
            rw [cmpEq] at hr
            cases hr
            simp [Std.LawfulEqCmp.compare_eq_iff_eq]
      · rw [cmpEq_of_rank hna hnb hrank] at hr
        cases hr
        rw [order_of_rank hca hcb hrank, decide_eq_false]
        rw [Std.LawfulEqCmp.compare_eq_iff_eq]
        exact hrank

end

/-- The order is total among the values, and agrees with the equality wherever that answers
about settled values in which there is neither a null nor what is not a number. -/
structure TotalOrder (toF64 : Decimal → Float64) (values : Set Value) : Prop where
  refl : ∀ a ∈ values, order toF64 a a = .eq
  swap : ∀ a ∈ values, ∀ b ∈ values, order toF64 b a = (order toF64 a b).swap
  trans : ∀ a ∈ values, ∀ b ∈ values, ∀ c ∈ values, order toF64 a b ≠ .gt →
    order toF64 b c ≠ .gt → order toF64 a c ≠ .gt
  agrees : ∀ a ∈ values, ∀ b ∈ values, Whole a → Whole b → ∀ r,
    cmpEq toF64 a.settle b.settle = .ok r → (order toF64 a b = .eq ↔ r = some true)

theorem within_num {numbers : Set Number} {n : Number} :
    Within numbers (num n) ↔ n ∈ numbers := by
  constructor
  · exact fun h => h n (Inside.self _)
  · intro h m hm
    cases hm with
    | self => exact h
    | part hw => cases hw

/-- The order is total among the values that are put together of given numbers and of what is
no number, and agrees with the equality, if and only if the numbers are straight. -/
theorem totalOrder_iff (toF64 : Decimal → Float64) {numbers : Set Number}
    (hscaled : Scaled numbers) :
    TotalOrder toF64 {v | Within numbers v} ↔ Straight toF64 numbers := by
  constructor
  · intro h
    apply straight_of_trans hscaled
    intro x hx y hy z hz hxy hyz
    have hxz := h.trans (num x) (within_num.2 hx) (num y) (within_num.2 hy) (num z)
      (within_num.2 hz)
    rw [order_num, order_num, order_num] at hxz
    exact hxz hxy hyz
  · intro h
    constructor
    · exact fun a _ => order_self a
    · exact fun a _ b _ => order_swap a b
    · intro a ha b hb c hc hab hbc
      have hac := order_follows (fun x hx y hy z hz => h.follows hscaled hx hy hz) ha hb hc hab hbc
      rw [hac]
      cases horder : order toF64 a b <;> simp_all
    · intro a _ b _ hwa hwb r hr
      have hr := agrees_of_whole (settled_settle a) (settled_settle b) hwa.settle hwb.settle r hr
      rw [hr, order_settle, Option.some.injEq, decide_eq_true_eq]

/-- An integer, the float it rounds to, and the integer that is the float: each is as much as
the next, and the first is more than the last. -/
theorem order_not_transitive : ¬ ∃ toF64 : Decimal → Float64, ∀ a b c : Value,
    order toF64 a b ≠ .gt → order toF64 b c ≠ .gt → order toF64 a c ≠ .gt := by
  rintro ⟨toF64, h⟩
  have hac := h (num (.int (2 ^ 53 + 1) (by decide))) (num (.float 0x4340000000000000))
    (num (.int (2 ^ 53) (by decide)))
  rw [order_num, order_num, order_num, Number.order, Number.order, Number.order] at hac
  exact hac (by decide) (by decide) (by decide)

/-- One, a half more written exactly, and the float of that. -/
def oneToAHalfMore : Set Number :=
  {.int 1 (by decide), .decimal Decimal.oneAndAHalf, .float 0x3FF8000000000000}

theorem totalOrder_oneToAHalfMore :
    TotalOrder (fun _ => 0x3FF8000000000000) {v | Within oneToAHalfMore v} ↔
      Straight (fun _ => 0x3FF8000000000000) oneToAHalfMore := by
  apply totalOrder_iff
  rintro x (rfl | rfl | rfl) d hd
  · cases hd
    decide
  · cases hd
    decide
  · cases hd

end Value

end Zu.Query
