import Zu.Common.NumberLine
import Zu.Common.Temporal
import Zu.Lib.Bytes
import Zu.Lib.Comparing
import Zu.Lib.Entry
import Zu.Query.VarLength

/-!
# Values

The values of a query, the order between any two of them, and the equality that answers three
ways. Numbers of three types meet in both: two exact numbers as the numbers they are, and where
one is a float, as floats.
-/

namespace Zu.Query

open Lib Lib.Walks Common

/-- The bits of an `f64`. -/
abbrev Float64 := BitVec 64

namespace Float64

def isNan (x : Float64) : Bool :=
  decide (x.toNat / 2 ^ 52 % 2 ^ 11 = 2047 ∧ x.toNat % 2 ^ 52 ≠ 0)

/-- Where a number stands among the others: the bits of a magnitude are more as it is more, and
the two zeroes are one. -/
def place (x : Float64) : ℤ :=
  if x.msb then -(x.toNat % 2 ^ 63 : ℕ) else (x.toNat % 2 ^ 63 : ℕ)

def eq (x y : Float64) : Bool := !x.isNan && !y.isNan && decide (x.place = y.place)

def order (x y : Float64) : Ordering :=
  match x.isNan, y.isNan with
  | true, true => .eq
  | true, false => .gt
  | false, true => .lt
  | false, false => compare x.place y.place

/-- The magnitude nearest to `n`, of two as near the one whose last bit is nought. -/
def nearest (n : ℕ) : ℕ :=
  let top := n.log2
  if n = 0 then 0
  else if top ≤ 52 then (1023 + top) * 2 ^ 52 + (n * 2 ^ (52 - top) - 2 ^ 52)
  else
    let unit := 2 ^ (top - 52)
    let kept := n / unit
    let up := if unit < 2 * (n % unit) ∨ (2 * (n % unit) = unit ∧ kept % 2 = 1) then 1 else 0
    (1023 + top) * 2 ^ 52 + (kept + up - 2 ^ 52)

/-- `as f64` of an integer. -/
def ofInt (n : ℤ) : Float64 :=
  BitVec.ofNat 64 (nearest n.natAbs + if n < 0 then 2 ^ 63 else 0)

end Float64

/-- `Int`, `Float` and `Decimal` of `Value`. -/
inductive Number
  | int (n : ℤ) (fits : Fits 64 n)
  | float (x : Float64)
  | decimal (d : Decimal)

namespace Number

theorem fits_wide {n : ℤ} (fits : Fits 64 n) : Fits 128 n := by
  rw [Fits] at fits ⊢
  norm_num at fits ⊢
  omega

/-- `Decimal::new(i128::from(n), 0)`. -/
def ofWord (n : ℤ) (fits : Fits 64 n) : Decimal :=
  ⟨n, 0, fits_wide fits⟩

section

variable (toF64 : Decimal → Float64)

/-- What `value_order` answers of two numbers, where `toF64` is `Decimal::to_f64`. -/
def order : Number → Number → Ordering
  | int a _, int b _ => compare a b
  | float a, float b => a.order b
  | int a _, float b => (Float64.ofInt a).order b
  | float a, int b _ => a.order (Float64.ofInt b)
  | decimal a, decimal b => a.cmp b
  | decimal a, int b h => a.cmp (ofWord b h)
  | int a h, decimal b => (ofWord a h).cmp b
  | decimal a, float b => (toF64 a).order b
  | float a, decimal b => a.order (toF64 b)

/-- What `cmp_eq` answers of two numbers. -/
def eq : Number → Number → Bool
  | int x _, int y _ => decide (x = y)
  | float x, float y => x.eq y
  | int x _, float y => (Float64.ofInt x).eq y
  | float x, int y _ => x.eq (Float64.ofInt y)
  | decimal x, decimal y => decide (x.cmp y = .eq)
  | decimal x, int y h => decide (x.cmp (ofWord y h) = .eq)
  | int x h, decimal y => decide ((ofWord x h).cmp y = .eq)
  | decimal x, float y => (toF64 x).eq y
  | float x, decimal y => x.eq (toF64 y)

end

end Number

/-- What a path is made of, which alternates. -/
inductive Element
  | node (v : NodeAt)
  | rel (r : Rel)

/-- `Value`. A chain holds its hops last first, behind the node it starts at. Of the handles
there is what tells them apart. -/
inductive Value
  | null
  | bool (b : Bool)
  | num (n : Number)
  | str (s : String)
  | bytes (b : Bytes)
  | node (v : NodeAt)
  | rel (r : Rel)
  | list (items : List Value)
  | record (fields : List (String × Value))
  | temporal (t : Temporal)
  | path (elements : List Element)
  | chain (start : NodeAt) (link : List Hop)
  | graph (id epoch : ℕ)
  | bindingTable (id : ℕ)

def Element.value : Element → Value
  | .node v => .node v
  | .rel r => .rel r

/-- What `cmp_eq` answers of two elements. -/
def Element.eq : Element → Element → Bool
  | .node x, .node y => decide (x = y)
  | .rel x, .rel y => decide (x = y)
  | _, _ => false

def zonedTimeKey (nanos offset : ℤ) : ℤ := nanos - offset * 60 * 1000000000

def temporalKey : Temporal → ℤ × ℤ
  | .date days => (0, days)
  | .localTime nanos => (1, nanos)
  | .zonedTime nanos offset => (2, zonedTimeKey nanos offset)
  | .localDatetime nanos => (3, nanos)
  | .zonedDatetime nanos _ => (4, nanos)
  | .duration .yearMonth count => (5, count)
  | .duration .dayTime count => (6, count)

def sameInstant : Temporal → Temporal → Bool
  | .zonedDatetime x _, .zonedDatetime y _ => decide (x = y)
  | .zonedTime x ox, .zonedTime y oy => decide (zonedTimeKey x ox = zonedTimeKey y oy)
  | a, b => decide (a = b)

/-- An error a statement ends with. -/
structure Refused where
  code : String
  message : String
  deriving DecidableEq

namespace Value

def pathRels (link : List Hop) : List Value := (link.map fun hop => rel hop.1).reverse

mutual

def settle : Value → Value
  | chain _ link => list (pathRels link)
  | list items => list (settleItems items)
  | record fields => record (settleFields fields)
  | other => other

def settleItems : List Value → List Value
  | [] => []
  | item :: items => settle item :: settleItems items

def settleFields : List (String × Value) → List (String × Value)
  | [] => []
  | (name, value) :: fields => (name, settle value) :: settleFields fields

end

def rank : Value → ℕ
  | null => 0
  | bool _ => 1
  | num _ => 2
  | str _ => 3
  | bytes _ => 4
  | temporal _ => 5
  | node _ => 6
  | rel _ => 7
  | list _ | chain _ _ => 8
  | record _ => 9
  | path _ => 10
  | graph _ _ => 11
  | bindingTable _ => 12

def isChain : Value → Bool
  | chain _ _ => true
  | _ => false

mutual

/-- How much there is to a value, of which settling it leaves less where it is a chain. -/
def weight : Value → ℕ
  | list items => weightItems items + 1
  | record fields => weightFields fields + 1
  | path elements => 2 * elements.length + 1
  | chain _ link => 2 * link.length + 2
  | _ => 1

def weightItems : List Value → ℕ
  | [] => 0
  | item :: items => weight item + 1 + weightItems items

def weightFields : List (String × Value) → ℕ
  | [] => 0
  | (_, value) :: fields => weight value + 1 + weightFields fields

end

theorem weight_pos (v : Value) : 0 < v.weight := by
  cases v <;> simp [weight]

theorem weightItems_append (xs ys : List Value) :
    weightItems (xs ++ ys) = weightItems xs + weightItems ys := by
  induction xs with
  | nil => simp [weightItems]
  | cons x xs ih => simp [weightItems, ih, Nat.add_assoc]

theorem weightItems_pathRels (link : List Hop) : weightItems (pathRels link) = 2 * link.length := by
  induction link with
  | nil => rfl
  | cons hop link ih =>
      rw [pathRels, List.map_cons, List.reverse_cons, weightItems_append, ← pathRels, ih]
      simp [weightItems, weight, Nat.mul_succ]

mutual

theorem weight_settle_le : (v : Value) → v.settle.weight ≤ v.weight
  | list items => by
      have h := weightItems_settle_le items
      simpa [settle, weight] using h
  | record fields => by
      have h := weightFields_settle_le fields
      simpa [settle, weight] using h
  | chain _ link => by simp [settle, weight, weightItems_pathRels]
  | null | bool _ | num _ | str _ | bytes _ | node _ | rel _ | temporal _ | path _ | graph _ _
  | bindingTable _ => by simp [settle]

theorem weightItems_settle_le : (items : List Value) →
    weightItems (settleItems items) ≤ weightItems items
  | [] => Nat.le_refl _
  | item :: items => by
      have h := weight_settle_le item
      have h' := weightItems_settle_le items
      simp only [settleItems, weightItems]
      omega

theorem weightFields_settle_le : (fields : List (String × Value)) →
    weightFields (settleFields fields) ≤ weightFields fields
  | [] => Nat.le_refl _
  | (_, value) :: fields => by
      have h := weight_settle_le value
      have h' := weightFields_settle_le fields
      simp only [settleFields, weightFields]
      omega

end

theorem weight_settle_lt {v : Value} (h : v.isChain = true) : v.settle.weight < v.weight := by
  cases v <;> simp_all [isChain, settle, weight, weightItems_pathRels]

theorem weightItems_elements (elements : List Element) :
    weightItems (elements.map Element.value) = 2 * elements.length := by
  induction elements with
  | nil => rfl
  | cons e elements ih =>
      have h : e.value.weight = 1 := by cases e <;> rfl
      simp [weightItems, ih, h]
      omega

section

variable (toF64 : Decimal → Float64)

mutual

def order (a b : Value) : Ordering :=
  if a.isChain || b.isChain then order a.settle b.settle
  else
    match a, b with
    | num a, num b => a.order toF64 b
    | bool a, bool b => compare a b
    | str a, str b => compare a b
    | bytes a, bytes b => compare a b
    | temporal a, temporal b => pairCmp compare compare (temporalKey a) (temporalKey b)
    | node a, node b => pairCmp compare compare a b
    | rel a, rel b => pairCmp compare (pairCmp compare (pairCmp compare compare))
        (a.table, a.src, a.dst, a.ord) (b.table, b.src, b.dst, b.ord)
    | list a, list b => orderItems a b
    | path a, path b => orderItems (a.map Element.value) (b.map Element.value)
    | record a, record b => orderFields a b
    | graph a _, graph b _ => compare a b
    | bindingTable a, bindingTable b => compare a b
    | a, b => compare a.rank b.rank
termination_by a.weight + b.weight
decreasing_by
  · rename_i h
    rw [Bool.or_eq_true] at h
    have ha := weight_settle_le a
    have hb := weight_settle_le b
    obtain h | h := h
    · have hlt := weight_settle_lt h
      omega
    · have hlt := weight_settle_lt h
      omega
  · simp only [weight]
    omega
  · simp only [weight, weightItems_elements]
    omega
  · simp only [weight]
    omega

/-- The loop over two lists. -/
def orderItems : List Value → List Value → Ordering
  | x :: xs, y :: ys =>
      let ord := order x y
      if ord ≠ .eq then ord else orderItems xs ys
  | xs, ys => compare xs.length ys.length
termination_by xs ys => weightItems xs + weightItems ys
decreasing_by
  · simp only [weightItems]
    omega
  · simp only [weightItems]
    omega

/-- The loop over the fields of two records. -/
def orderFields : List (String × Value) → List (String × Value) → Ordering
  | (na, va) :: xs, (nb, vb) :: ys =>
      let ord := (compare na nb).then (order va vb)
      if ord ≠ .eq then ord else orderFields xs ys
  | xs, ys => compare xs.length ys.length
termination_by xs ys => weightFields xs + weightFields ys
decreasing_by
  · simp only [weightFields]
    omega
  · simp only [weightFields]
    omega

end

def sameFields (x y : List (String × Value)) : Bool := decide (x.map Prod.fst = y.map Prod.fst)

def fieldNames (fields : List (String × Value)) : String :=
  "(" ++ String.intercalate ", " (fields.map Prod.fst) ++ ")"

mutual

def cmpEq : Value → Value → Except Refused (Option Bool)
  | null, _ => .ok none
  | _, null => .ok none
  | num x, num y => .ok (some (x.eq toF64 y))
  | bool x, bool y => .ok (some (decide (x = y)))
  | str x, str y => .ok (some (decide (x = y)))
  | bytes x, bytes y => .ok (some (decide (x = y)))
  | temporal x, temporal y => .ok (some (sameInstant x y))
  | node x, node y => .ok (some (decide (x = y)))
  | rel x, rel y => .ok (some (decide (x = y)))
  | list x, list y => if x.length ≠ y.length then .ok (some false) else cmpEqItems x y false
  | record x, record y =>
      if !sameFields x y then
        .error ⟨"22G0U", "a record with fields " ++ fieldNames x ++
          " cannot be compared with one with fields " ++ fieldNames y⟩
      else cmpEqFields x y false
  | path x, path y =>
      if x.length ≠ y.length then .ok (some false)
      else .ok (some ((x.zip y).all fun p => p.1.eq p.2))
  | graph x _, graph y _ => .ok (some (decide (x = y)))
  | bindingTable x, bindingTable y => .ok (some (decide (x = y)))
  | _, _ => .ok (some false)

/-- The loop over two lists. -/
def cmpEqItems : List Value → List Value → Bool → Except Refused (Option Bool)
  | a :: xs, b :: ys, sawNull => do
      match ← cmpEq a b with
      | some false => return some false
      | some true => cmpEqItems xs ys sawNull
      | none => cmpEqItems xs ys true
  | _, _, sawNull => return if sawNull then none else some true

/-- The loop over the fields of two records. -/
def cmpEqFields : List (String × Value) → List (String × Value) → Bool →
    Except Refused (Option Bool)
  | (_, a) :: xs, (_, b) :: ys, sawNull => do
      match ← cmpEq a b with
      | some false => return some false
      | some true => cmpEqFields xs ys sawNull
      | none => cmpEqFields xs ys true
  | _, _, sawNull => return if sawNull then none else some true

end

end

end Value

end Zu.Query
