import Zu.Lib.Tally
import Zu.Query.Stage
import Zu.Query.ValueOrder

/-!
# Set operators

What a composite query makes of two result tables. Every one of the six operators is a statement
about how often a row appears, and rows that the order of values compares equal are one row; so
what they answer holds where that is an order.
-/

namespace Zu.Query

namespace Ordered

open Lib Common Value

/-- A row of a result table. -/
abbrev Row := List Value

section

variable (toF64 : Decimal → Float64)

/-- The order of `Vec<OrdValue>`. -/
def rowOrder : Row → Row → Ordering := lexOrder (order toF64)

/-- `*counts.entry(key).or_insert(0) += 1`. -/
def oneMore (held : Option ℕ) : Option ℕ := some (held.getD 0 + 1)

/-- What one row of the right operand takes of what is held. -/
def oneLess (all : Bool) (held : Option ℕ) : Option ℕ :=
  held.map fun held => if all then held - 1 else 0

def counted (rows : List Row) : List (Row × ℕ) := rows.foldl (spend (rowOrder toF64) oneMore) []

def conjoinRows (left right : List Row) (op : SetOp) (all : Bool) (build : Side) : List Row :=
  match op with
  | .union =>
      if all then left ++ right
      else sift (rowOrder toF64) Option.isNone (fun _ => some ()) [] (left ++ right)
  | .intersect =>
      let (built, probe) := match build with
        | .left => (left, right)
        | .right => (right, left)
      sift (rowOrder toF64) (fun held => decide (0 < held.getD 0)) (oneLess all)
        (counted toF64 built) probe
  | .except =>
      match build with
      | .right =>
          sift (rowOrder toF64)
            (fun
              | none => true
              | some subtract => if 0 < subtract then false else all)
            (fun
              | none => if all then none else some 0
              | some subtract => if 0 < subtract ∧ all then some (subtract - 1) else none)
            (counted toF64 right) left
      | .left =>
          sift (rowOrder toF64) (fun held => decide (0 < held.getD 0)) (oneLess all)
            (right.foldl (spend (rowOrder toF64) (oneLess all)) (counted toF64 left)) left

end

/-- How often a row appears in what an operator makes of two tables it appears in `m` and `n`
times. -/
def multiplicity (op : SetOp) (all : Bool) (m n : ℕ) : ℕ :=
  match op, all with
  | .union, true => m + n
  | .union, false => min 1 (m + n)
  | .intersect, true => min m n
  | .intersect, false => min 1 (min m n)
  | .except, true => m - n
  | .except, false => if n = 0 then min 1 m else 0

/-! ### How many rows of a class are kept -/

theorem kept_union (held : Option Unit) (n : ℕ) :
    kept Option.isNone (fun _ => some ()) held n = if held.isNone then min 1 n else 0 := by
  induction n generalizing held with
  | zero => simp [kept]
  | succ n ih =>
      rw [kept, ih]
      cases held <;> simp [after]

/-- A table of what is left over keeps a row as often as it says. -/
theorem kept_leftOver (all : Bool) (held : Option ℕ) (n : ℕ) :
    kept (fun held => decide (0 < held.getD 0)) (oneLess all) held n =
      if all then min (held.getD 0) n else min 1 (min (held.getD 0) n) := by
  induction n generalizing held with
  | zero => cases all <;> simp [kept]
  | succ n ih =>
      rw [kept, ih]
      cases held with
      | none => cases all <;> simp [after, oneLess]
      | some m =>
          cases all <;> cases m <;> simp [after, oneLess]
          omega

/-- A table of what is taken away keeps what is left of a row when it has been taken. -/
theorem kept_subtract (all : Bool) (held : Option ℕ) (n : ℕ) :
    kept (fun
        | none => true
        | some subtract => if 0 < subtract then false else all)
      (fun
        | none => if all then none else some 0
        | some subtract => if 0 < subtract ∧ all then some (subtract - 1) else none) held n =
      if all then n - held.getD 0 else if held.isNone then min 1 n else 0 := by
  induction n generalizing held with
  | zero => cases all <;> simp [kept]
  | succ n ih =>
      rw [kept, ih]
      cases held with
      | none => cases all <;> simp [after, Nat.add_comm]
      | some m => cases all <;> cases m <;> simp [after, Nat.add_comm]

theorem oneMore_iterate (n : ℕ) :
    (after oneMore)^[n] none = if n = 0 then none else some n := by
  induction n with
  | zero => rfl
  | succ n ih =>
      rw [Function.iterate_succ_apply', ih]
      split_ifs with h <;> simp_all [after, oneMore]

theorem oneLess_iterate (all : Bool) (held : Option ℕ) (n : ℕ) :
    ((after (oneLess all))^[n] held).getD 0 =
      if all then held.getD 0 - n else if n = 0 then held.getD 0 else 0 := by
  induction n generalizing held with
  | zero => cases all <;> simp
  | succ n ih =>
      rw [Function.iterate_succ_apply, ih]
      cases held with
      | none => cases all <;> simp [after, oneLess]
      | some m =>
          cases all <;> simp [after, oneLess]
          omega

/-! ### Operators -/

section

variable {toF64 : Decimal → Float64} {rows : Set Row}

theorem seek_counted (h : OrderOn (rowOrder toF64) rows) {table : List Row}
    (htable : ∀ row ∈ table, row ∈ rows) {row : Row} (hrow : row ∈ rows) :
    seek (rowOrder toF64) row (counted toF64 table) =
      if times (rowOrder toF64) row table = 0 then none
      else some (times (rowOrder toF64) row table) := by
  rw [counted, seek_foldl h htable among_nil hrow, seek, oneMore_iterate]

theorem among_counted {table : List Row} (htable : ∀ row ∈ table, row ∈ rows) :
    Among rows (counted toF64 table) := Among.foldl htable oneMore among_nil

theorem getD_seek_counted (h : OrderOn (rowOrder toF64) rows) {table : List Row}
    (htable : ∀ row ∈ table, row ∈ rows) {row : Row} (hrow : row ∈ rows) :
    (seek (rowOrder toF64) row (counted toF64 table)).getD 0 =
      times (rowOrder toF64) row table := by
  rw [seek_counted h htable hrow]
  split_ifs with hzero
  · exact hzero.symm
  · rfl

/-- Where the rows have an order, an operator answers every row as often as it says, whichever
operand its table is built over. -/
theorem times_conjoinRows (h : OrderOn (rowOrder toF64) rows) {left right : List Row}
    (hleft : ∀ row ∈ left, row ∈ rows) (hright : ∀ row ∈ right, row ∈ rows) (op : SetOp)
    (all : Bool) (build : Side) {row : Row} (hrow : row ∈ rows) :
    times (rowOrder toF64) row (conjoinRows toF64 left right op all build) =
      multiplicity op all (times (rowOrder toF64) row left)
        (times (rowOrder toF64) row right) := by
  have hboth : ∀ row ∈ left ++ right, row ∈ rows := by
    intro row hmem
    rcases List.mem_append.1 hmem with hmem | hmem
    · exact hleft row hmem
    · exact hright row hmem
  cases op with
  | union =>
      cases all with
      | true => simp [conjoinRows, multiplicity, times_append]
      | false =>
          have hsift := times_sift h hboth (among_nil (ν := Unit)) hrow Option.isNone fun _ => some ()
          simp [conjoinRows, multiplicity, hsift, seek, kept_union, times_append]
  | intersect =>
      cases build with
      | left =>
          simp only [conjoinRows]
          rw [times_sift h hright (among_counted hleft) hrow, kept_leftOver,
            getD_seek_counted h hleft hrow]
          cases all <;> rfl
      | right =>
          simp only [conjoinRows]
          rw [times_sift h hleft (among_counted hright) hrow, kept_leftOver,
            getD_seek_counted h hright hrow, Nat.min_comm (times _ row right)]
          cases all <;> rfl
  | except =>
      cases build with
      | left =>
          simp only [conjoinRows]
          rw [times_sift h hleft ((among_counted hleft).foldl hright _) hrow, kept_leftOver,
            seek_foldl h hright (among_counted hleft) hrow, oneLess_iterate,
            getD_seek_counted h hleft hrow]
          cases all <;> simp [multiplicity]
          split_ifs <;> simp
      | right =>
          simp only [conjoinRows]
          rw [times_sift h hleft (among_counted hright) hrow, kept_subtract,
            getD_seek_counted h hright hrow, seek_counted h hright hrow]
          cases all <;> simp [multiplicity]

end

/-! ### Rows that have no order -/

section

variable {toF64 : Decimal → Float64}

theorem rowOrder_swap (a b : Row) : rowOrder toF64 b a = (rowOrder toF64 a b).swap :=
  lexOrder_swap fun x _ y _ => order_swap x y

theorem rowOrder_self (a : Row) : rowOrder toF64 a a = .eq := by
  have h : rowOrder toF64 a a = (rowOrder toF64 a a).swap := rowOrder_swap a a
  cases horder : rowOrder toF64 a a <;> simp_all

theorem conjoinRows_subset (left right : List Row) (op : SetOp) (all : Bool) (build : Side) :
    conjoinRows toF64 left right op all build ⊆ left ++ right := by
  cases op with
  | union =>
      cases all with
      | true => simp [conjoinRows]
      | false => simpa [conjoinRows] using sift_subset [] (left ++ right)
  | intersect =>
      cases build with
      | left => exact List.Subset.trans (sift_subset _ right) (List.subset_append_right left right)
      | right => exact List.Subset.trans (sift_subset _ left) (List.subset_append_left left right)
  | except =>
      cases build with
      | left => exact List.Subset.trans (sift_subset _ left) (List.subset_append_left left right)
      | right => exact List.Subset.trans (sift_subset _ left) (List.subset_append_left left right)

/-- Every operator answers every row as often as it says, of any two tables of given rows. -/
def Answered (toF64 : Decimal → Float64) (rows : Set Row) : Prop :=
  ∀ left right : List Row, (∀ row ∈ left, row ∈ rows) → (∀ row ∈ right, row ∈ rows) →
    ∀ op all build, conjoinRows toF64 left right op all build ⊆ left ++ right ∧
      ∀ row ∈ rows, times (rowOrder toF64) row (conjoinRows toF64 left right op all build) =
        multiplicity op all (times (rowOrder toF64) row left) (times (rowOrder toF64) row right)

theorem Answered.trans {rows : Set Row} (h : Answered toF64 rows) {a b c : Row} (ha : a ∈ rows)
    (hb : b ∈ rows) (hc : c ∈ rows) (hab : rowOrder toF64 a b ≠ .gt)
    (hbc : rowOrder toF64 b c ≠ .gt) : rowOrder toF64 a c ≠ .gt := by
  intro hac
  have hca : rowOrder toF64 c a = .lt := by
    rw [rowOrder_swap a c, hac]
    rfl
  have hba : rowOrder toF64 b a = (rowOrder toF64 a b).swap := rowOrder_swap a b
  have hunion : ∀ left right : List Row, (∀ row ∈ left, row ∈ rows) →
      (∀ row ∈ right, row ∈ rows) → ∀ row ∈ rows,
      times (rowOrder toF64) row (conjoinRows toF64 left right .union false .right) =
        min 1 (times (rowOrder toF64) row left + times (rowOrder toF64) row right) :=
    fun left right hleft hright row hrow => (h left right hleft hright .union false .right).2 row hrow
  -- a row that is put in below the row it is equal to, or below one that is, is not found
  cases hab' : rowOrder toF64 a b with
  | gt => exact hab hab'
  | eq =>
      have htwice := hunion [a, c] [b] (by simp [ha, hc]) (by simp [hb]) b hb
      cases hbc' : rowOrder toF64 b c with
      | gt => exact hbc hbc'
      | eq =>
          simp [conjoinRows, sift, spend, seek, put, times_cons, hca, hab', hba, hbc',
            rowOrder_self] at htwice
      | lt =>
          simp [conjoinRows, sift, spend, seek, put, times_cons, hca, hab', hba, hbc',
            rowOrder_self] at htwice
  | lt =>
      cases hbc' : rowOrder toF64 b c with
      | gt => exact hbc hbc'
      | eq =>
          have htwice := hunion [a, b] [c] (by simp [ha, hb]) (by simp [hc]) b hb
          simp [conjoinRows, sift, spend, seek, put, times_cons, hca, hab', hba, hbc',
            rowOrder_self] at htwice
      | lt =>
          have htwice := hunion [a, b] [c, b] (by simp [ha, hb]) (by simp [hb, hc]) b hb
          simp [conjoinRows, sift, spend, seek, put, times_cons, hca, hab', hba, hbc',
            rowOrder_self] at htwice

theorem answered_iff (rows : Set Row) :
    Answered toF64 rows ↔ ∀ a ∈ rows, ∀ b ∈ rows, ∀ c ∈ rows, rowOrder toF64 a b ≠ .gt →
      rowOrder toF64 b c ≠ .gt → rowOrder toF64 a c ≠ .gt := by
  constructor
  · intro h a ha b hb c hc hab hbc
    exact h.trans ha hb hc hab hbc
  · intro htrans left right hleft hright op all build
    have horder : OrderOn (rowOrder toF64) rows :=
      .of_trans (fun a _ b _ => rowOrder_swap a b) htrans
    constructor
    · exact conjoinRows_subset left right op all build
    · intro row hrow
      exact times_conjoinRows horder hleft hright op all build hrow

end

/-! ### Composite queries -/

section

variable {ν ε π χ F : Type}

structure QueryResult (ν : Type) where
  columns : List String
  rows : List Row
  notices : List ν

/-- What is written of a composite query, where a third operand is joined onto the first two. -/
inductive Composite (χ : Type)
  | linear (query : χ)
  | conjoined (left : Composite χ) (how : Conjunction) (right : χ)

/-- `BoundQuery`, of which `linear` is what runs without its conjunctions. -/
inductive BoundQuery (χ : Type)
  | mk (linear : χ) (columns : List String) (conjoined : List (Conjunction × BoundQuery χ))

namespace BoundQuery

def columns : BoundQuery χ → List String
  | mk _ columns _ => columns

def conjoined : BoundQuery χ → List (Conjunction × BoundQuery χ)
  | mk _ _ conjoined => conjoined

/-- `query.conjoined.get(nth).map_or(query, |joined| joined.query.as_ref())`. -/
def operand (query : BoundQuery χ) (nth : ℕ) : BoundQuery χ :=
  match query.conjoined[nth]? with
  | some joined => joined.2
  | none => query

end BoundQuery

/-- `LogicalPlan`, of which a part is what runs without a conjoin. -/
inductive LogicalPlan (π : Type)
  | part (plan : π)
  | conjoin (left right : LogicalPlan π) (how : Conjunction) (build : Side)

/-- `collect_operands`. Only the leftmost operand has no conjunction. -/
def collectOperands : Composite χ → χ × List (Conjunction × χ)
  | .linear query => (query, [])
  | .conjoined left how right =>
      let (first, rest) := collectOperands left
      (first, rest ++ [(how, right)])

mutual

/-- `build`, where a part is built by `partOf`. -/
def build (partOf : χ → Except ε π) : BoundQuery χ → Except ε (LogicalPlan π)
  | .mk linear _ conjoined => do
      let plan ← partOf linear
      buildOnto partOf conjoined (.part plan)

/-- The loop over the operands. -/
def buildOnto (partOf : χ → Except ε π) : List (Conjunction × BoundQuery χ) → LogicalPlan π →
    Except ε (LogicalPlan π)
  | [], plan => .ok plan
  | (how, query) :: rest, plan => do
      let right ← build partOf query
      buildOnto partOf rest (.conjoin plan right how .right)

end

def conjoinDepth : LogicalPlan π → ℕ
  | .part _ => 0
  | .conjoin left _ _ _ => conjoinDepth left + 1

/-- What a conjunction makes of the left answer and of the right operand, which is run only
where it is asked. -/
def conjoin (toF64 : Decimal → Float64) (columns : List String) (how : Conjunction) (side : Side)
    (result : QueryResult ν) (right : Except ε (QueryResult ν)) : Except ε (QueryResult ν) :=
  match how with
  | .otherwise =>
      if !result.rows.isEmpty then .ok result
      else do
        let right ← right
        return { right with columns }
  | .set op all => do
      let other ← right
      return ⟨columns, conjoinRows toF64 result.rows other.rows op all side,
        result.notices ++ other.notices⟩

/-- `run_stages`, where a part is run by `run`. -/
def runStages (toF64 : Decimal → Float64) (run : π → BoundQuery χ → Except ε (QueryResult ν)) :
    LogicalPlan π → BoundQuery χ → Except ε (QueryResult ν)
  | .part plan, query => run plan query
  | .conjoin left right how side, query => do
      let operand := query.operand (conjoinDepth left)
      let result ← runStages toF64 run left query
      conjoin toF64 query.columns how side result (runStages toF64 run right operand)

/-- An operand as it is joined to what stands to its left. -/
structure Joined (π χ : Type) where
  how : Conjunction
  side : Side
  plan : π
  query : BoundQuery χ

/-- Operands joined on left to right. -/
def chain (first : π) (joined : List (Joined π χ)) : LogicalPlan π :=
  joined.foldl (fun plan next => .conjoin plan (.part next.plan) next.how next.side) (.part first)

theorem chain_concat (first : π) (joined : List (Joined π χ)) (next : Joined π χ) :
    chain first (joined ++ [next]) =
      .conjoin (chain first joined) (.part next.plan) next.how next.side := by
  simp [chain]

theorem conjoinDepth_chain (first : π) (joined : List (Joined π χ)) :
    conjoinDepth (chain first joined) = joined.length := by
  induction joined using List.reverseRecOn with
  | nil => rfl
  | append_singleton joined next ih =>
      rw [chain_concat, conjoinDepth, ih, List.length_append]
      rfl

/-- A chain runs its operands left to right, each conjunction onto the answer of all before. -/
theorem runStages_chain (toF64 : Decimal → Float64)
    (run : π → BoundQuery χ → Except ε (QueryResult ν)) (linear : χ) (columns : List String)
    (first : π) (joined rest : List (Joined π χ)) (query : BoundQuery χ)
    (hquery : query = .mk linear columns ((joined ++ rest).map fun next => (next.how, next.query))) :
    runStages toF64 run (chain first joined) query =
      run first query >>= joined.foldlM fun result next =>
        conjoin toF64 columns next.how next.side result (run next.plan next.query) := by
  induction joined using List.reverseRecOn generalizing rest with
  | nil => simp [chain, runStages]
  | append_singleton joined next ih =>
      have hoperand : query.operand joined.length = next.query := by
        simp [hquery, BoundQuery.operand, BoundQuery.conjoined]
      rw [chain_concat, runStages, conjoinDepth_chain, hoperand,
        ih (next :: rest) (by simpa using hquery)]
      simp [runStages, hquery, BoundQuery.columns]

/-- What is made of a composite, of two operands first where there are three. -/
def Composite.fold {α : Type} (one : χ → α) (join : α → Conjunction → χ → α) : Composite χ → α
  | .linear query => one query
  | .conjoined left how right => join (left.fold one join) how right

theorem foldl_collectOperands {α : Type} (one : χ → α) (join : α → Conjunction → χ → α)
    (body : Composite χ) :
    (collectOperands body).2.foldl (fun acc next => join acc next.1 next.2)
        (one (collectOperands body).1) = body.fold one join := by
  induction body with
  | linear query => rfl
  | conjoined left how right ih => simp [collectOperands, Composite.fold, ih]

end

/-- Operators answer every row of any tables of given rows as often as they say if and only if
the order of values is transitive among the rows; and operands are joined onto the answer of all
that stand to their left. -/
theorem setOperators_answer_iff (toF64 : Decimal → Float64) (rows : Set Row) :
    (Answered toF64 rows ↔ ∀ a ∈ rows, ∀ b ∈ rows, ∀ c ∈ rows, rowOrder toF64 a b ≠ .gt →
      rowOrder toF64 b c ≠ .gt → rowOrder toF64 a c ≠ .gt) ∧
    ∀ (ν ε π χ : Type) (run : π → BoundQuery χ → Except ε (QueryResult ν)) (linear : χ)
      (columns : List String) (first : π) (joined : List (Joined π χ)),
      let query := .mk linear columns (joined.map fun next => (next.how, next.query))
      runStages toF64 run (chain first joined) query =
        run first query >>= joined.foldlM fun result next =>
          conjoin toF64 columns next.how next.side result (run next.plan next.query) := by
  constructor
  · exact answered_iff rows
  · intro ν ε π χ run linear columns first joined
    exact runStages_chain toF64 run linear columns first joined [] _ (by simp)

/-- Two integers and the float both are as much as: a union of the three answers the float
twice. -/
theorem union_answers_twice : ¬ ∀ (toF64 : Decimal → Float64) (rows : Set Row),
    Answered toF64 rows := by
  intro h
  have hac := (h (fun _ => 0) Set.univ).trans
    (Set.mem_univ [num (.int (2 ^ 53 + 1) (by decide))])
    (Set.mem_univ [num (.float 0x4340000000000000)])
    (Set.mem_univ [num (.int (2 ^ 53) (by decide))])
  rw [rowOrder, lexOrder_cons_cons, lexOrder_cons_cons, lexOrder_cons_cons, order_num, order_num,
    order_num] at hac
  exact hac (by decide) (by decide) (by decide)

end Ordered

end Zu.Query
