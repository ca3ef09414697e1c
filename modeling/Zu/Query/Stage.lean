import Zu.Lib.Fallible

/-!
# Stages and what is done to their rows

A plan runs as stages. A stage pulls its operators until they are dry and its sink
makes a row of every configuration a pull leaves; then the operators written after
the projection run over the rows. The operators under the sink are a parameter,
`Pull`: what is said here holds whatever they do.
-/

namespace Zu

namespace Query

open Lib

/-- The errors of a statement. `outOfFuel` is not one of the code's: a loop that has
taken as many turns as the model gives it raises it. -/
inductive QueryError
  | gql (code message : String)
  | invalidArgument (message : String)
  | outOfFuel
  deriving DecidableEq, Repr

/-- What the executor asks of a value. -/
class Values (V : Type) where
  null : V
  bool : Bool → V
  isNull : V → Bool
  int? : V → Option ℤ
  bool? : V → Option Bool
  /-- `value_order`, which `OrdValue` compares by. -/
  order : V → V → Ordering
  /-- How a value prints in a message. -/
  debug : V → String
  /-- `value_type`. -/
  typeName : V → String
  bool_inj : ∀ a b : Bool, bool a = bool b → a = b

/-- `SortKey`. -/
structure SortKey (X : Type) where
  expr : X
  ascending : Bool := true
  nullsFirst : Bool := false

/-- `PostOp`: what runs over the rows of a projection. -/
inductive PostOp (X : Type)
  | distinct
  | filter (expr : X)
  | sort (keys : List (SortKey X))
  | skip (expr : X)
  | limit (expr : X)

/-- `BoundClause::Project`, what of it comes after the items. -/
structure Projection (X : Type) where
  distinct : Bool := false
  filter : Option X := none
  orderBy : List (SortKey X) := []
  skip : Option X := none
  limit : Option X := none

/-- The operators a projection becomes, in the order `build` stacks them. -/
def Projection.post {X : Type} (p : Projection X) : List (PostOp X) :=
  (if p.distinct then [.distinct] else []) ++ p.filter.toList.map .filter ++
    (if p.orderBy.isEmpty then [] else [.sort p.orderBy]) ++
    p.skip.toList.map .skip ++ p.limit.toList.map .limit

/-- `SinkDef`: whether it groups, the projection it stands for, and the filters
written right after that. -/
structure SinkDef (X : Type) where
  aggregate : Bool := false
  projection : Projection X := {}
  filters : List X := []

def SinkDef.post {X : Type} (sink : SinkDef X) : List (PostOp X) :=
  sink.projection.post ++ sink.filters.map .filter

structure Row (V : Type) where
  values : List V
  keys : List V := []
  extra : List (ℕ × V) := []

/-- How an expression evaluates over the slots a row keeps. -/
abbrev Eval (X V : Type) := List (ℕ × V) → X → Except QueryError V

section

variable {X V : Type} [Values V]

def holds (v : V) : Except QueryError Bool :=
  match Values.bool? v with
  | some b => .ok b
  | none =>
      if Values.isNull v then .ok false
      else .error (.gql "22G03"
        s!"a search condition is a boolean, and this one is {Values.typeName v}")

def countExpr (eval : Eval X V) (expr : X) (what : String) : Except QueryError ℕ := do
  let v ← eval [] expr
  match Values.int? v with
  | some n =>
      if 0 ≤ n then .ok n.toNat
      else .error (.gql "22G02" s!"{what} needs a non-negative integer, got {n}")
  | none => .error (.gql "22G03" s!"{what} needs an integer, got {Values.debug v}")

def sortCmp (key : SortKey X) (a b : V) : Ordering :=
  match Values.isNull a, Values.isNull b with
  | true, true => .eq
  | true, false => if key.nullsFirst then .lt else .gt
  | false, true => if key.nullsFirst then .gt else .lt
  | false, false => if key.ascending then Values.order a b else (Values.order a b).swap

/-- Whether one row sorts at or before another. -/
def sortLe : List (SortKey X) → List V → List V → Bool
  | key :: keys, a :: as, b :: bs =>
      match sortCmp key a b with
      | .lt => true
      | .gt => false
      | .eq => sortLe keys as bs
  | _, _, _ => true

/-- Whether two rows of values are one row to `DISTINCT`. -/
def sameValues : List V → List V → Bool
  | [], [] => true
  | a :: as, b :: bs => Values.order a b == .eq && sameValues as bs
  | _, _ => false

/-- The first of every set of rows that are one row. -/
def distinctRows : List (List V) → List (Row V) → List (Row V)
  | _, [] => []
  | seen, row :: rows =>
      if seen.any (sameValues · row.values) then distinctRows seen rows
      else row :: distinctRows (row.values :: seen) rows

/-- The rows that pass a filter. -/
def keepRows (eval : Eval X V) (expr : X) : List (Row V) → Except QueryError (List (Row V))
  | [] => .ok []
  | row :: rows => do
      let pass ← holds (← eval row.extra expr)
      let kept ← keepRows eval expr rows
      return if pass then row :: kept else kept

/-- One operator of `apply_post`. -/
def applyOp (eval : Eval X V) (rows : List (Row V)) :
    PostOp X → Except QueryError (List (Row V))
  | .distinct => .ok (distinctRows [] rows)
  | .filter expr => keepRows eval expr rows
  | .sort keys => .ok (rows.mergeSort fun a b => sortLe keys a.keys b.keys)
  | .skip expr => do
      let n ← countExpr eval expr "SKIP"
      return rows.drop (min n rows.length)
  | .limit expr => do
      let n ← countExpr eval expr "LIMIT"
      return rows.take n

def applyPost (eval : Eval X V) : List (PostOp X) → List (Row V) →
    Except QueryError (List (Row V))
  | [], rows => .ok rows
  | op :: ops, rows => do
      let rows ← applyOp eval rows op
      applyPost eval ops rows

end

/-- The operators of a stage: `next` pulls the top one, `emit` makes the rows of the
chunks a pull left, `update` folds those into the groups and `close` makes the rows
of the groups. -/
structure Pull (σ γ V : Type) where
  next : Fallible QueryError σ Bool
  emit : Fallible QueryError σ (List (Row V))
  update : γ → Fallible QueryError σ γ
  close : γ → Fallible QueryError σ (List (Row V))
  noGroups : γ
  merge : γ → γ → Except QueryError γ

/-- `StageDef`, with the state it starts from, which reads the rows of the stage
under it, and the states its workers start from, one a morsel, when it is split. -/
structure Stage (σ γ X V : Type) where
  pull : Pull σ γ V
  sink : SinkDef X
  eval : Eval X V
  start : List (List V) → σ
  morsels : List (List V) → List σ := fun _ => []

section

variable {σ γ X V : Type} [Values V]

/-- Pulls until the operators are dry, and gathers the rows. -/
def drain (p : Pull σ γ V) : ℕ → Fallible QueryError σ (List (Row V))
  | 0 => throw .outOfFuel
  | fuel + 1 => do
      if ← p.next then
        let rows ← p.emit
        let rest ← drain p fuel
        return rows ++ rest
      else return []

/-- Pulls until the operators are dry, and gathers the groups. -/
def drainGroups (p : Pull σ γ V) : ℕ → γ → Fallible QueryError σ γ
  | 0, _ => throw .outOfFuel
  | fuel + 1, groups => do
      if ← p.next then
        let groups ← p.update groups
        drainGroups p fuel groups
      else return groups

/-- The rows a sink has when its operators are dry. -/
def collect (stage : Stage σ γ X V) (fuel : ℕ) : Fallible QueryError σ (List (Row V)) :=
  if stage.sink.aggregate then do
    let groups ← drainGroups stage.pull fuel stage.pull.noGroups
    stage.pull.close groups
  else drain stage.pull fuel

/-- What a program returns from a state. -/
def runFrom {α : Type} (x : Fallible QueryError σ α) (s : σ) : Except QueryError α :=
  (x.exec s).1

def runStage (stage : Stage σ γ X V) (fuel : ℕ) (input : List (List V)) :
    Except QueryError (List (List V)) := do
  let rows ← runFrom (collect stage fuel) (stage.start input)
  let rows ← applyPost stage.eval stage.sink.post rows
  return rows.map Row.values

/-- The rows of the morsels, one after another. -/
def drainMorsels (stage : Stage σ γ X V) (fuel : ℕ) :
    List σ → Except QueryError (List (Row V))
  | [] => .ok []
  | s :: ss => do
      let rows ← runFrom (drain stage.pull fuel) s
      let rest ← drainMorsels stage fuel ss
      return rows ++ rest

/-- The groups of the morsels, each folded into those before it. -/
def mergeMorsels (stage : Stage σ γ X V) (fuel : ℕ) :
    γ → List σ → Except QueryError γ
  | groups, [] => .ok groups
  | groups, s :: ss => do
      let part ← runFrom (drainGroups stage.pull fuel stage.pull.noGroups) s
      let groups ← stage.pull.merge groups part
      mergeMorsels stage fuel groups ss

/-- The rows the morsels of a stage leave its sink, in the order of the scan. -/
def collectParallel (stage : Stage σ γ X V) (fuel : ℕ) (input : List (List V)) :
    Except QueryError (List (Row V)) :=
  if stage.sink.aggregate then do
    let groups ← mergeMorsels stage fuel stage.pull.noGroups (stage.morsels input)
    runFrom (stage.pull.close groups) (stage.start input)
  else drainMorsels stage fuel (stage.morsels input)

def runStageParallel (stage : Stage σ γ X V) (fuel : ℕ) (input : List (List V)) :
    Except QueryError (List (List V)) := do
  let rows ← collectParallel stage fuel input
  let rows ← applyPost stage.eval stage.sink.post rows
  return rows.map Row.values

/-- A stage as `run_stages` runs it when nobody streams it: over the workers when it
is split, and on the thread of the caller otherwise. -/
def runBuffered (stage : Stage σ γ X V) (fuel : ℕ) (input : List (List V)) :
    Except QueryError (List (List V)) :=
  if (stage.morsels input).isEmpty then runStage stage fuel input
  else runStageParallel stage fuel input

/-- The stages in order, each over the rows of the one before it. -/
def runBufferedAll (fuel : ℕ) : List (Stage σ γ X V) → List (List V) →
    Except QueryError (List (List V))
  | [], rows => .ok rows
  | stage :: stages, rows => do
      let rows ← runBuffered stage fuel rows
      runBufferedAll fuel stages rows

end

end Query

end Zu

/-!
## Plans

A plan is stages, or two plans whose result tables are conjoined. The operands of a
conjunction share nothing, so each runs on its own and what meets is two tables of
rows.
-/

namespace Zu

namespace Query

variable {σ γ X V : Type}

inductive SetOp
  | union
  | intersect
  | except
  deriving DecidableEq, Repr

/-- `Side`: the operand a conjunction counts. -/
inductive Side
  | left
  | right
  deriving DecidableEq, Repr

inductive Conjunction
  | otherwise
  | set (op : SetOp) (all : Bool)
  deriving DecidableEq, Repr

section

variable [Values V]

/-- How often each row that is one row appears. -/
abbrev Counts (V : Type) := List (List V × ℕ)

/-- The count of a row, when the table has one. -/
def Counts.get? (counts : Counts V) (row : List V) : Option ℕ :=
  (counts.find? fun e => sameValues e.1 row).map Prod.snd

def Counts.set : Counts V → List V → ℕ → Counts V
  | [], row, n => [(row, n)]
  | e :: counts, row, n =>
      if sameValues e.1 row then (e.1, n) :: counts else e :: Counts.set counts row n

def counted (rows : List (List V)) : Counts V :=
  rows.foldl (fun counts row => counts.set row ((counts.get? row).getD 0 + 1)) []

/-- The first of every set of rows that are one row. -/
def unionDistinct : List (List V) → List (List V) → List (List V)
  | _, [] => []
  | seen, row :: rows =>
      if seen.any (sameValues · row) then unionDistinct seen rows
      else row :: unionDistinct (row :: seen) rows

/-- Reads the probing operand against the counts of the other: a row is answered
while the table has one left of it. -/
def intersectRows (all : Bool) : Counts V → List (List V) → List (List V)
  | _, [] => []
  | counts, row :: rows =>
      match counts.get? row with
      | none | some 0 => intersectRows all counts rows
      | some (n + 1) => row :: intersectRows all (counts.set row (if all then n else 0)) rows

/-- Takes the rows of the right operand out of the counts of the left. -/
def takeOut (all : Bool) (counts : Counts V) (rows : List (List V)) : Counts V :=
  rows.foldl (fun counts row =>
    match counts.get? row with
    | some n => counts.set row (if all then n - 1 else 0)
    | none => counts) counts

/-- Whether a row of the left survives, and what it leaves of the table. -/
def keepExcept (all : Bool) (build : Side) (counts : Counts V) (row : List V) :
    Bool × Counts V :=
  match build, counts.get? row with
  | .right, some (n + 1) => (false, counts.set row (n + 1 - if all then 1 else 0))
  | .right, some 0 => (all, counts)
  | .right, none => (true, counts)
  | .left, some (n + 1) => (true, counts.set row n)
  | .left, _ => (false, counts)

def exceptRows (all : Bool) (build : Side) : Counts V → List (List V) → List (List V)
  | _, [] => []
  | counts, row :: rows =>
      match keepExcept all build counts row with
      | (true, counts) =>
          row :: exceptRows all build (if all then counts else counts.set row 0) rows
      | (false, counts) => exceptRows all build counts rows

def conjoinRows (left right : List (List V)) (op : SetOp) (all : Bool) (build : Side) :
    List (List V) :=
  match op with
  | .union => if all then left ++ right else unionDistinct [] (left ++ right)
  | .intersect =>
      match build with
      | .left => intersectRows all (counted left) right
      | .right => intersectRows all (counted right) left
  | .except =>
      match build with
      | .right => exceptRows all .right (counted right) left
      | .left => exceptRows all .left (takeOut all (counted left) right) left

end

/-- `LogicalPlan`, with what `fill_bindings`, `Scalars::prepare` and `build_stages`
make of a plan that is not a conjunction, given the parameters. -/
inductive Plan (σ γ X V : Type)
  | stages (prepare : List V → Except QueryError (List (Stage σ γ X V)))
  | conjoin (left right : Plan σ γ X V) (how : Conjunction) (build : Side)

section

variable [Values V]

/-- `run_stages` with nobody streaming, and `run_conjoin`. -/
def Plan.run (fuel : ℕ) (params : List V) :
    Plan σ γ X V → Except QueryError (List (List V))
  | .stages prepare => do
      let stages ← prepare params
      runBufferedAll fuel stages []
  | .conjoin left right how build => do
      let rows ← left.run fuel params
      match how with
      | .otherwise => if rows.isEmpty then right.run fuel params else return rows
      | .set op all => do
          let other ← right.run fuel params
          return conjoinRows rows other op all build

end

end Query

end Zu
