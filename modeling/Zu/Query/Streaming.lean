import Zu.Query.Stage

/-!
# Handing rows over in batches

A streamed statement hands its rows over as they are made, a batch at a time, and
spends SKIP and LIMIT across the batches. A stage that sorts, groups or drops
duplicates cannot, so its rows arrive whole and are cut into batches afterwards.
-/

namespace Zu.Query

open Lib

variable {σ γ X V : Type}

inductive Flow
  | more
  | stop
  deriving DecidableEq, Repr

/-- What the rows are handed to: it answers a batch knowing those it was handed
before. -/
abbrev Sink (V : Type) := List (List (List V)) → List (List V) → Except QueryError Flow

/-- `Streaming`, with the batches the sink was handed so far. -/
structure Streaming (V : Type) where
  batch : ℕ
  skip : ℕ := 0
  limit : Option ℕ := none
  rows : ℕ := 0
  stopped : Bool := false
  streamed : Bool := false
  handed : List (List (List V)) := []

def Streaming.new (batch : ℕ) : Streaming V := { batch := max batch 1 }

def Streaming.wantsMore (st : Streaming V) : Bool := !st.stopped && st.limit != some 0

/-- `chunks`: parts of `n` rows, the last one shorter. -/
def chunksFrom (n : ℕ) : ℕ → List (List V) → List (List (List V))
  | 0, _ => []
  | fuel + 1, rows =>
      if rows.isEmpty then [] else rows.take n :: chunksFrom n fuel (rows.drop n)

def chunks (n : ℕ) (rows : List (List V)) : List (List (List V)) :=
  chunksFrom n rows.length rows

/-- A program over a handoff. -/
abbrev Handoff (V : Type) := Fallible QueryError (Streaming V)

def handOver (sink : Sink V) (values : List (List V)) : Handoff V Flow :=
  if values.isEmpty then return .more
  else do
    let st ← get
    set { st with rows := st.rows + values.length, handed := st.handed ++ [values] }
    match sink st.handed values with
    | .error e => throw e
    | .ok .more => return .more
    | .ok .stop => do
        modify fun st => { st with stopped := true }
        return .stop

/-- The batches in order, until the sink says stop: the loop of `feed` and of
`hand_over_all`. -/
def handOverEach (sink : Sink V) : List (List (List V)) → Handoff V Unit
  | [] => return ()
  | chunk :: rest => do
      match ← handOver sink chunk with
      | .stop => return ()
      | .more => handOverEach sink rest

/-- `feed`: spends the window on one piece of the answer and hands the rest over. -/
def feed (sink : Sink V) (rows : List (List V)) : Handoff V Bool := do
  let st ← get
  let n := min st.skip rows.length
  let rows := rows.drop n
  let (kept, limit) :=
    match st.limit with
    | some left => (rows.take (min left rows.length), some (left - min left rows.length))
    | none => (rows, none)
  set { st with skip := st.skip - n, limit := limit }
  handOverEach sink (chunks st.batch kept)
  let st ← get
  return st.wantsMore

def handOverAll (sink : Sink V) (rows : List (List V)) : Handoff V Unit := do
  let st ← get
  handOverEach sink (chunks st.batch rows)

/-- The operators of a sink, as `streamable` reads them: `windowed` is whether a
window came before. -/
def streamableFrom : Bool → List (PostOp X) → Bool
  | _, [] => true
  | windowed, .filter _ :: ops => !windowed && streamableFrom windowed ops
  | _, .skip _ :: ops => streamableFrom true ops
  | _, .limit _ :: ops => streamableFrom true ops
  | _, .sort _ :: _ => false
  | _, .distinct :: _ => false

def SinkDef.streamable (sink : SinkDef X) : Bool :=
  !sink.aggregate && streamableFrom false sink.post

section

variable [Values V]

/-- The rows of one batch that pass the filters: the loop of `stream_batch`. -/
def batchRows (eval : Eval X V) : List (PostOp X) → List (Row V) →
    Except QueryError (List (Row V))
  | [], rows => .ok rows
  | .filter expr :: ops, rows => do
      let rows ← keepRows eval expr rows
      batchRows eval ops rows
  | .skip _ :: ops, rows => batchRows eval ops rows
  | .limit _ :: ops, rows => batchRows eval ops rows
  | .sort _ :: _, _ => .error (.invalidArgument "streamable refuses sorting and DISTINCT")
  | .distinct :: _, _ => .error (.invalidArgument "streamable refuses sorting and DISTINCT")

def streamBatch (sink : Sink V) (eval : Eval X V) (post : List (PostOp X))
    (rows : List (Row V)) : Handoff V Bool :=
  match batchRows eval post rows with
  | .error e => throw e
  | .ok rows => feed sink (rows.map Row.values)

/-- The full batches of a buffer, and what is left of it unless the sink or the
window is done. -/
def drainBatches (sink : Sink V) (eval : Eval X V) (post : List (PostOp X)) (batch : ℕ) :
    ℕ → List (Row V) → Handoff V (Option (List (Row V)))
  | 0, buf => return some buf
  | fuel + 1, buf =>
      if batch ≤ buf.length then do
        if ← streamBatch sink eval post (buf.take batch) then
          drainBatches sink eval post batch fuel (buf.drop batch)
        else return none
      else return some buf

/-- The window a sink asks for, evaluated to counts. -/
def windowCounts (eval : Eval X V) : List (PostOp X) → ℕ × Option ℕ →
    Except QueryError (ℕ × Option ℕ)
  | [], w => .ok w
  | .skip expr :: ops, w => do
      let n ← countExpr eval expr "SKIP"
      windowCounts eval ops (n, w.2)
  | .limit expr :: ops, w => do
      let n ← countExpr eval expr "LIMIT"
      windowCounts eval ops (w.1, some n)
  | _ :: ops, w => windowCounts eval ops w

/-- Runs a program over the operators of a stage that is being streamed. -/
def onPull {α : Type} (x : Fallible QueryError σ α) :
    Fallible QueryError (σ × Streaming V) α := fun s => ((x s.1).1, (x s.1).2, s.2)

/-- Runs a program over the handoff of a stage that is being streamed. -/
def onHandoff {α : Type} (x : Handoff V α) : Fallible QueryError (σ × Streaming V) α :=
  fun s => ((x s.2).1, s.1, (x s.2).2)

/-- Pulls a chunk, hands over the full batches it made, and goes on. -/
def streamLoop (p : Pull σ γ V) (eval : Eval X V) (post : List (PostOp X)) (sink : Sink V)
    (batch : ℕ) : ℕ → List (Row V) → Fallible QueryError (σ × Streaming V) Unit
  | 0, _ => throw .outOfFuel
  | fuel + 1, buf => do
      if ← onPull p.next then
        let rows ← onPull p.emit
        let all := buf ++ rows
        match ← onHandoff (drainBatches sink eval post batch all.length all) with
        | none => return ()
        | some left => streamLoop p eval post sink batch fuel left
      else if buf.isEmpty then return ()
      else do
        let _ ← onHandoff (streamBatch sink eval post buf)
        return ()

def runStageStream (stage : Stage σ γ X V) (sink : Sink V) (fuel : ℕ) :
    Fallible QueryError (σ × Streaming V) Unit :=
  match windowCounts stage.eval stage.sink.post (0, none) with
  | .error e => throw e
  | .ok (skip, limit) => do
      onHandoff (modify fun st => { st with skip, limit, streamed := true })
      let s ← get
      if s.2.wantsMore then
        streamLoop stage.pull stage.eval stage.sink.post sink s.2.batch fuel []
      else return ()

/-- The last stage of a statement somebody streams. A stage that cannot stream is
run whole, and its rows come back. -/
def runLast (stage : Stage σ γ X V) (sink : Sink V) (fuel : ℕ) (input : List (List V)) :
    Handoff V (List (List V)) := fun st =>
  if stage.sink.streamable then
    let (r, s) := (runStageStream stage sink fuel).exec (stage.start input, st)
    (r.map fun _ => [], s.2)
  else (runBuffered stage fuel input, st)

/-- `run_stages` with a handoff: only the last stage can stream. -/
def runStreamed (sink : Sink V) (fuel : ℕ) : List (Stage σ γ X V) → List (List V) →
    Handoff V (List (List V))
  | [], rows => return rows
  | [stage], rows => runLast stage sink fuel rows
  | stage :: next :: stages, rows =>
      match runBuffered stage fuel rows with
      | .error e => throw e
      | .ok rows => runStreamed sink fuel (next :: stages) rows

attribute [grind =] runStreamed

/-- `run_stages` with a handoff. A conjunction hands nothing over. -/
def Plan.runStreamed (sink : Sink V) (fuel : ℕ) (params : List V) :
    Plan σ γ X V → Handoff V (List (List V))
  | .stages prepare =>
      match prepare params with
      | .error e => throw e
      | .ok ready => Query.runStreamed sink fuel ready []
  | .conjoin left right how build => fun st =>
      ((Plan.conjoin left right how build).run fuel params, st)

def execute (fuel : ℕ) (params : List V) (plan : Plan σ γ X V) :
    Except QueryError (List (List V)) := plan.run fuel params

/-- `execute_streaming`: rows that were not handed over as they were made are handed
over afterwards. -/
def executeStreaming (sink : Sink V) (fuel : ℕ) (params : List V) (plan : Plan σ γ X V) :
    Handoff V Unit := do
  let rows ← plan.runStreamed sink fuel params
  let st ← get
  if !st.streamed && !st.stopped then handOverAll sink rows else return ()

end

end Zu.Query
