import Zu.Exec.EarlyStop
import Zu.Query.Column

/-!
# The sink that keeps the vectors

A plain projection has no step above it. Its answer is kept in columns: a worker appends what
it projects to one buffer per item, and notes where the rows of each morsel sit in them. At
the end the pieces of the workers are put in the order of the morsels, and what comes out says
of every row what the sink of rows says, in columns as the rows would make them.
-/

namespace Zu.Exec

open Lib Common Schema Query

/-- A cell of a vector: the word it is, or the text it views. -/
structure Cell where
  word : BitVec 64
  text : String

namespace Cell

def int (c : Cell) : I64 := ⟨c.word.toInt, by
  have hle := BitVec.le_toInt c.word
  have hlt := BitVec.toInt_lt (x := c.word)
  rw [Lib.Fits]
  omega⟩

end Cell

inductive TemporalLane
  | date
  | localTime
  | localDatetime
  | duration (kind : DurationKind)

namespace TemporalLane

def columnType : TemporalLane → ColumnType
  | date => .date
  | localTime => .localTime
  | localDatetime => .localDatetime
  | duration .yearMonth => .yearMonth
  | duration .dayTime => .dayTime

def value (word : BitVec 64) : TemporalLane → Temporal
  | date => .date (word.setWidth 32).toInt
  | localTime => .localTime word.toInt
  | localDatetime => .localDatetime word.toInt
  | duration kind => .duration kind word.toInt

end TemporalLane

inductive ColType
  | int
  | float
  | str
  | temporal (lane : TemporalLane)

inductive ScalarRef
  | node (level : ℕ)
  | rowId (level : ℕ)
  | col (level vec : ℕ) (ty : ColType)
  | const (slot : ℕ)

/-- A chunk: its vectors, row by row, and the row it is pinned to. A cell that is not valid has
nothing. -/
structure DataChunk where
  vecs : ℕ → ℕ → Option Cell
  cur : ℕ

/-- A chunk on every level down to the newest, and the active positions of that one. -/
structure ChunkSet where
  chunks : ℕ → DataChunk
  last : ℕ
  active : List ℕ

/-- What the sink reads of a plan: the names of its columns and their items, the tables of the
levels, the constants, and the steps above. -/
structure ExecPlan where
  columns : List String
  items : List ScalarRef
  named : columns.length = items.length
  table : ℕ → ℕ
  consts : ℕ → Value
  post : List (PostSpec (List Value))

/-! ### Rows -/

/-- The position an item on a level reads where the newest level is at `pos`. -/
def ChunkSet.index (set : ChunkSet) (level pos : ℕ) : ℕ :=
  if level = set.last then pos else (set.chunks level).cur

def ColType.value (c : Cell) : ColType → Value
  | int => .num (.int c.int.1 c.int.2)
  | float => .num (.float c.word)
  | str => .str c.text
  | temporal lane => .temporal (lane.value c.word)

def scalar (plan : ExecPlan) (set : ChunkSet) (r : ScalarRef) (pos : ℕ) : Value :=
  match r with
  | .const slot => plan.consts slot
  | .node level =>
      match (set.chunks level).vecs 0 (set.index level pos) with
      | none => .null
      | some c => .node ⟨plan.table level, c.word.toNat⟩
  | .rowId level =>
      match (set.chunks level).vecs 0 (set.index level pos) with
      | none => .null
      | some c => .num (.int c.int.1 c.int.2)
  | .col level vec ty =>
      match (set.chunks level).vecs vec (set.index level pos) with
      | none => .null
      | some c => ty.value c

/-- What `push_sink` makes of a set, into rows. -/
def pushRows (plan : ExecPlan) (rows : List (List Value)) (set : ChunkSet) : List (List Value) :=
  rows ++ set.active.map fun pos => plan.items.map fun r => scalar plan set r pos

/-- What a worker that keeps rows has of its morsels. -/
def rowBatches (plan : ExecPlan) (morsels : List (ℕ × List ChunkSet)) :
    List (ℕ × List (List Value)) :=
  morsels.map fun m => (m.1, m.2.foldl (pushRows plan) [])

def finishRows (plan : ExecPlan) (workers : List (List (ℕ × List ChunkSet))) :
    List (List Value) :=
  let batches := workers.flatMap (rowBatches plan)
  applyPost plan.post ((batches.mergeSort fun a b => decide (a.1 ≤ b.1)).flatMap Prod.snd)

/-! ### Columns -/

inductive Buf
  | null
  | bool (values : List Bool)
  | int (values : List I64)
  | float (values : List Float64)
  | str (bytes : Bytes) (offsets : List ℕ)
  | complex (values : List Value)

structure Fill where
  ty : ColumnType
  buf : Buf
  valid : Option (List Bool)
  len : ℕ

namespace Fill

def bufNew : ColumnType → Buf
  | .null => .null
  | .bool => .bool []
  | .int => .int []
  | .float => .float []
  | .str => .str [] [0]
  | _ => .complex []

def new (ty : ColumnType) : Fill := ⟨ty, bufNew ty, none, 0⟩

def there (f : Fill) (buf : Buf) : Fill :=
  ⟨f.ty, buf, f.valid.map (· ++ [true]), f.len + 1⟩

/-- `push_int`. A column of another type has none. -/
def pushInt (f : Fill) (n : I64) : Option Fill :=
  match f.buf with
  | .int values => some (f.there (.int (values ++ [n])))
  | _ => none

def pushFloat (f : Fill) (x : Float64) : Option Fill :=
  match f.buf with
  | .float values => some (f.there (.float (values ++ [x])))
  | _ => none

def pushBytes (f : Fill) (b : Bytes) : Option Fill :=
  match f.buf with
  | .str bytes offsets => some (f.there (.str (bytes ++ b) (offsets ++ [(bytes ++ b).length])))
  | _ => none

def pushValue (f : Fill) (v : Value) : Option Fill :=
  match f.buf, v with
  | .null, .null => some (f.there .null)
  | .bool values, .bool b => some (f.there (.bool (values ++ [b])))
  | .int values, .num (.int n h) => some (f.there (.int (values ++ [⟨n, h⟩])))
  | .float values, .num (.float x) => some (f.there (.float (values ++ [x])))
  | .str bytes offsets, .str s =>
      some (f.there (.str (bytes ++ utf8 s) (offsets ++ [(bytes ++ utf8 s).length])))
  | .complex values, v => some (f.there (.complex (values ++ [v])))
  | _, _ => none

/-- The buffer with a cell that has nothing. -/
def bufNull : Buf → Buf
  | .null => .null
  | .bool values => .bool (values ++ [false])
  | .int values => .int (values ++ [RowFill.zero])
  | .float values => .float (values ++ [0])
  | .str bytes offsets => .str bytes (offsets ++ [bytes.length])
  | .complex values => .complex (values ++ [.null])

def pushNull (f : Fill) : Fill :=
  ⟨f.ty, bufNull f.buf, some (f.valid.getD (List.replicate f.len true) ++ [false]), f.len + 1⟩

end Fill

def ScalarRef.columnType (plan : ExecPlan) : ScalarRef → Option ColumnType
  | node _ => some .node
  | rowId _ => some .int
  | col _ _ .int => some .int
  | col _ _ .float => some .float
  | col _ _ .str => some .str
  | col _ _ (.temporal lane) => some lane.columnType
  | const slot => (ColumnType.of (plan.consts slot)).toOption

structure ColumnSink where
  fills : List Fill
  spans : List (ℕ × ℕ × ℕ)
  started : ℕ
  rows : ℕ

def ColumnSink.new (types : List ColumnType) : ColumnSink := ⟨types.map Fill.new, [], 0, 0⟩

def columnSink (plan : ExecPlan) : Option ColumnSink :=
  if plan.post.isEmpty && !plan.items.isEmpty then
    (plan.items.mapM (ScalarRef.columnType plan)).map ColumnSink.new
  else none

/-- What `push_columns` appends of a cell that is valid, under an item. -/
def ScalarRef.pushCell (plan : ExecPlan) (f : Fill) (c : Cell) : ScalarRef → Option Fill
  | node level => f.pushValue (.node ⟨plan.table level, c.word.toNat⟩)
  | rowId _ => f.pushInt c.int
  | col _ _ .int => f.pushInt c.int
  | col _ _ .float => f.pushFloat c.word
  | col _ _ .str => f.pushBytes (utf8 c.text)
  | col _ _ (.temporal lane) => f.pushValue (.temporal (lane.value c.word))
  | const slot => f.pushValue (plan.consts slot)

/-- What `push_columns` appends at one position of a vector. -/
def ScalarRef.pushAt (plan : ExecPlan) (set : ChunkSet) (r : ScalarRef) (level vec : ℕ)
    (pinned : Option ℕ) (f : Fill) (pos : ℕ) : Option Fill :=
  match (set.chunks level).vecs vec (pinned.getD pos) with
  | some c => r.pushCell plan f c
  | none => some f.pushNull

/-- What a level below the newest is pinned to. -/
def ChunkSet.pinned (set : ChunkSet) (level : ℕ) : Option ℕ :=
  if level ≠ set.last then some (set.chunks level).cur else none

/-- `push_columns`, of one item. -/
def ScalarRef.pushColumn (plan : ExecPlan) (set : ChunkSet) (f : Fill) (r : ScalarRef) :
    Option Fill :=
  match r with
  | const slot =>
      match plan.consts slot with
      | .null => set.active.foldlM (fun f _ => some f.pushNull) f
      | value => set.active.foldlM (fun f _ => f.pushValue value) f
  | node level =>
      set.active.foldlM (r.pushAt plan set level 0 (set.pinned level)) f
  | rowId level =>
      set.active.foldlM (r.pushAt plan set level 0 (set.pinned level)) f
  | col level vec _ =>
      set.active.foldlM (r.pushAt plan set level vec (set.pinned level)) f

/-- `push_columns`, item by item. -/
def pushItems (plan : ExecPlan) (set : ChunkSet) : List ScalarRef → List Fill → Option (List Fill)
  | r :: items, f :: fills => do
      let f ← r.pushColumn plan set f
      let fills ← pushItems plan set items fills
      return f :: fills
  | _, fills => some fills

def pushColumns (plan : ExecPlan) (sink : ColumnSink) (set : ChunkSet) : Option ColumnSink :=
  if set.active.length = 0 then some sink
  else do
    let fills ← pushItems plan set plan.items sink.fills
    return { sink with fills := fills, rows := sink.rows + set.active.length }

def ColumnSink.morselDone (sink : ColumnSink) (idx : ℕ) : ColumnSink :=
  { sink with
    spans := sink.spans ++ [(idx, sink.started, sink.rows - sink.started)]
    started := sink.rows }

def runMorsel (plan : ExecPlan) (sink : ColumnSink) (m : ℕ × List ChunkSet) :
    Option ColumnSink := do
  let sink ← m.2.foldlM (pushColumns plan) sink
  return sink.morselDone m.1

/-! ### Stitching -/

/-- A stretch of the rows of a worker. -/
structure Span where
  morsel : ℕ
  worker : ℕ
  start : ℕ
  len : ℕ

def Span.le (a b : Span) : Bool :=
  decide (toLex (a.morsel, toLex (a.worker, toLex (a.start, a.len))) ≤
    toLex (b.morsel, toLex (b.worker, toLex (b.start, b.len))))

/-- A stretch of the buffer of a source put behind a buffer, and what the source is left with. -/
def Buf.take (start len : ℕ) : Buf → Buf → Option (Buf × Buf)
  | null, null => some (null, null)
  | bool into, bool source => some (bool (into ++ (source.drop start).take len), bool source)
  | int into, int source => some (int (into ++ (source.drop start).take len), int source)
  | float into, float source => some (float (into ++ (source.drop start).take len), float source)
  | str into ends, str source ends' => do
      let first ← ends'[start]?
      let stop ← ends'[start + len]?
      let base ← ends.getLast?
      return (str (into ++ (source.take stop).drop first)
        (ends ++ ((ends'.drop (start + 1)).take len).map fun off => base + off - first),
        str source ends')
  | complex into, complex source =>
      some (complex (into ++ (source.drop start).take len),
        complex (source.take start ++ List.replicate ((source.drop start).take len).length .null ++
          source.drop (start + len)))
  | _, _ => none

/-- `take_from`, of a stretch that the source has. -/
def Fill.takeFrom (f src : Fill) (start len : ℕ) : Option (Fill × Fill) :=
  if len = 0 then some (f, src)
  else do
    let (buf, left) ← f.buf.take start len src.buf
    let valid := match src.valid with
      | none => f.valid.map (· ++ List.replicate len true)
      | some flags =>
          some (f.valid.getD (List.replicate f.len true) ++ (flags.drop start).take len)
    return (⟨f.ty, buf, valid, f.len + len⟩, { src with buf := left })

/-- The stretches of one column, taken one after the other. -/
def Fill.takeAll : List Span → Fill → List Fill → Option Fill
  | [], f, _ => some f
  | s :: order, f, srcs => do
      let src ← srcs[s.worker]?
      let (f, src) ← f.takeFrom src s.start s.len
      takeAll order f (srcs.set s.worker src)

def Buf.held : Buf → HeldData
  | null => .null
  | bool values => .bool (PackedBits.pack values)
  | int values => .int values
  | float values => .float values
  | str bytes offsets => .str ⟨bytes, Offsets.narrow bytes.length offsets⟩
  | complex values => .complex values

def Fill.finish (name : String) (f : Fill) : HeldColumn :=
  let nulls := (f.valid.getD []).countP fun flag => !flag
  ⟨name, if nulls = f.len ∧ 0 < f.len then .null else f.ty,
    if nulls = f.len ∧ 0 < f.len then .null else f.buf.held,
    if 0 < nulls ∧ nulls < f.len then some ⟨PackedBits.pack (f.valid.getD []), f.len, nulls⟩
    else none⟩

def finish (names : List String) (fills : List Fill) (rows : ℕ) : Held :=
  ⟨(names.zip fills).map fun e => e.2.finish e.1, rows⟩

def mergeColumn (partials : List ColumnSink) (order : List Span) (ix : ℕ) : Option Fill := do
  let srcs ← partials.mapM fun p => p.fills[ix]?
  let first ← srcs.head?
  Fill.takeAll order (Fill.new first.ty) srcs

/-- The stretches of all the workers, in the order of the morsels. -/
def spanOrder (partials : List ColumnSink) : List Span :=
  (partials.zipIdx.flatMap fun p => p.1.spans.map fun s =>
    ⟨s.1, p.2, s.2.1, s.2.2⟩).mergeSort Span.le

def merge (names : List String) : List ColumnSink → Option Held
  | [sink] => some (finish names sink.fills sink.rows)
  | partials => do
      let width := (partials.head?.map fun p => p.fills.length).getD 0
      let fills ← (List.range width).mapM (mergeColumn partials (spanOrder partials))
      return finish names fills (partials.map ColumnSink.rows).sum

/-- `finish_rows`, of columns: each worker's morsels run into its own sink, and what is kept. -/
def finishColumns (plan : ExecPlan) (workers : List (List (ℕ × List ChunkSet))) :
    Option Held := do
  let sink ← columnSink plan
  let partials ← workers.mapM fun morsels => morsels.foldlM (runMorsel plan) sink
  merge plan.columns partials

/-! ### What a buffer holds -/

/-- The buffer of a column of a type that has the cells of some values. -/
def Buf.of (ty : ColumnType) (vs : List Value) : Buf :=
  match Fill.bufNew ty with
  | null => null
  | bool _ => bool (vs.map Value.asBool)
  | int _ => int (vs.map Value.asInt)
  | float _ => float (vs.map Value.asFloat)
  | str _ _ => str (vs.flatMap Value.asText) (ends Value.asText vs)
  | complex _ => complex vs

/-- A column being filled holds the values of its rows. Where it keeps no flags each of them is
there. -/
structure Fill.Holds (ty : ColumnType) (vs : List Value) (f : Fill) : Prop where
  hty : f.ty = ty
  hlen : f.len = vs.length
  hbuf : f.buf = Buf.of ty vs
  hflags : f.valid.getD (List.replicate f.len true) = vs.map fun v => !v.isNull

namespace Fill

variable {ty : ColumnType} {vs : List Value} {f : Fill}

theorem new_holds (ty : ColumnType) : Holds ty [] (Fill.new ty) where
  hty := rfl
  hlen := rfl
  hbuf := by cases ty <;> rfl
  hflags := rfl

theorem Holds.there (h : Holds ty vs f) {v : Value} {buf : Buf} (hv : v.isNull = false)
    (hbuf : buf = Buf.of ty (vs ++ [v])) : Holds ty (vs ++ [v]) (f.there buf) where
  hty := h.hty
  hlen := by simp [Fill.there, h.hlen]
  hbuf := hbuf
  hflags := by
    have hflags := h.hflags
    cases hvalid : f.valid with
    | none =>
        rw [hvalid, Option.getD_none] at hflags
        simp [Fill.there, hvalid, List.replicate_succ', hflags, hv]
    | some flags =>
        rw [hvalid, Option.getD_some] at hflags
        simp [Fill.there, hvalid, hflags, hv]

theorem bufNull_of (ty : ColumnType) (vs : List Value) :
    bufNull (Buf.of ty vs) = Buf.of ty (vs ++ [.null]) := by
  have hstr : ends Value.asText (vs ++ [.null]) =
      ends Value.asText vs ++ [(vs.flatMap Value.asText).length] := by
    rw [ends_append]
    simp [Value.asText]
  rw [Buf.of, Buf.of]
  cases Fill.bufNew ty with
  | str => simp [bufNull, hstr, Value.asText]
  | _ => simp [bufNull, Value.asBool, Value.asInt, Value.asFloat]

theorem Holds.null (h : Holds ty vs f) : Holds ty (vs ++ [.null]) f.pushNull where
  hty := h.hty
  hlen := by simp [pushNull, h.hlen]
  hbuf := by
    change bufNull f.buf = _
    rw [h.hbuf, bufNull_of]
  hflags := by simp [pushNull, h.hflags, Value.isNull]

theorem Holds.value (h : Holds ty vs f) {v : Value} (hof : ColumnType.of v = .ok ty)
    (hv : v.isNull = false) : ∃ f', f.pushValue v = some f' ∧ Holds ty (vs ++ [v]) f' := by
  have hbuf := h.hbuf
  have hshape := ColumnType.shape_of hof
  have hstr : ∀ s, v = .str s → ends Value.asText (vs ++ [v]) =
      ends Value.asText vs ++ [(vs.flatMap Value.asText ++ utf8 s).length] := by
    rintro s rfl
    rw [ends_append]
    simp [Value.asText]
  cases ty with
  | null =>
      obtain rfl := hshape
      cases hv
  | bool =>
      obtain ⟨b, rfl⟩ := hshape
      exact ⟨_, by unfold pushValue; rw [hbuf]; rfl, h.there rfl (by simp [Buf.of, bufNew, Value.asBool])⟩
  | int =>
      obtain ⟨n, hn, rfl⟩ := hshape
      exact ⟨_, by unfold pushValue; rw [hbuf]; rfl, h.there rfl (by simp [Buf.of, bufNew, Value.asInt])⟩
  | float =>
      obtain ⟨x, rfl⟩ := hshape
      exact ⟨_, by unfold pushValue; rw [hbuf]; rfl,
        h.there rfl (by simp [Buf.of, bufNew, Value.asFloat])⟩
  | str =>
      obtain ⟨s, rfl⟩ := hshape
      exact ⟨_, by unfold pushValue; rw [hbuf]; rfl,
        h.there rfl (by simp [Buf.of, bufNew, hstr s rfl, Value.asText])⟩
  | _ => exact ⟨_, by unfold pushValue; rw [hbuf]; rfl, h.there hv rfl⟩

theorem Holds.int (h : Holds .int vs f) (n : I64) :
    ∃ f', f.pushInt n = some f' ∧ Holds .int (vs ++ [.num (.int n.1 n.2)]) f' :=
  ⟨_, by unfold pushInt; rw [h.hbuf]; rfl, h.there rfl (by simp [Buf.of, bufNew, Value.asInt])⟩

theorem Holds.float (h : Holds .float vs f) (x : Float64) :
    ∃ f', f.pushFloat x = some f' ∧ Holds .float (vs ++ [.num (.float x)]) f' :=
  ⟨_, by unfold pushFloat; rw [h.hbuf]; rfl, h.there rfl (by simp [Buf.of, bufNew, Value.asFloat])⟩

theorem Holds.text (h : Holds .str vs f) (s : String) :
    ∃ f', f.pushBytes (utf8 s) = some f' ∧ Holds .str (vs ++ [.str s]) f' := by
  refine ⟨_, by unfold pushBytes; rw [h.hbuf]; rfl, h.there rfl ?_⟩
  simp [Buf.of, bufNew, ends_append, Value.asText]

theorem Holds.foldlM {step : Fill → ℕ → Option Fill} {value : ℕ → Value}
    (hstep : ∀ {vs f}, Holds ty vs f → ∀ pos, ∃ f', step f pos = some f' ∧
      Holds ty (vs ++ [value pos]) f')
    (h : Holds ty vs f) (active : List ℕ) :
    ∃ f', active.foldlM step f = some f' ∧ Holds ty (vs ++ active.map value) f' := by
  induction active generalizing vs f with
  | nil => exact ⟨f, rfl, by rwa [List.map_nil, List.append_nil]⟩
  | cons pos active ih =>
      obtain ⟨f₁, hf₁, h₁⟩ := hstep h pos
      obtain ⟨f₂, hf₂, h₂⟩ := ih h₁
      rw [List.append_assoc] at h₂
      exact ⟨f₂, by rw [List.foldlM_cons, hf₁]; exact hf₂, h₂⟩

end Fill

/-! ### Items -/

section

variable (plan : ExecPlan)

theorem ChunkSet.pinned_getD (set : ChunkSet) (level pos : ℕ) :
    (set.pinned level).getD pos = set.index level pos := by
  rw [pinned, index]
  by_cases h : level = set.last
  · simp [h]
  · simp [h]

theorem ColType.of_value {level vec : ℕ} {col : ColType} {ty : ColumnType}
    (hty : (ScalarRef.col level vec col).columnType plan = some ty) (c : Cell) :
    ColumnType.of (col.value c) = .ok ty := by
  cases col with
  | temporal lane =>
      cases hty
      cases lane with
      | duration kind => cases kind <;> (rw [value, TemporalLane.value, ColumnType.of]; rfl)
      | _ => rw [value, TemporalLane.value, ColumnType.of]; rfl
  | _ =>
      cases hty
      rw [value, ColumnType.of]

theorem pushCell_holds {r : ScalarRef} {ty : ColumnType} (hty : r.columnType plan = some ty)
    (c : Cell) {value : Value}
    (hvalue : match r with
      | .node level => value = .node ⟨plan.table level, c.word.toNat⟩
      | .rowId _ => value = .num (.int c.int.1 c.int.2)
      | .col _ _ ty => value = ty.value c
      | .const _ => False)
    {vs : List Value} {f : Fill} (h : Fill.Holds ty vs f) :
    ∃ f', r.pushCell plan f c = some f' ∧ Fill.Holds ty (vs ++ [value]) f' := by
  cases r with
  | const => exact hvalue.elim
  | node level =>
      cases hty
      subst hvalue
      exact h.value (by rw [ColumnType.of]) rfl
  | rowId level =>
      cases hty
      subst hvalue
      exact h.int c.int
  | col level vec col =>
      subst hvalue
      cases col with
      | int =>
          cases hty
          exact h.int c.int
      | float =>
          cases hty
          exact h.float c.word
      | str =>
          cases hty
          exact h.text c.text
      | temporal lane =>
          exact h.value (ColType.of_value plan hty c) rfl

/-- An item appends to its column what it is at each active position. -/
theorem pushColumn_holds {r : ScalarRef} {ty : ColumnType} (hty : r.columnType plan = some ty)
    (set : ChunkSet) {vs : List Value} {f : Fill} (h : Fill.Holds ty vs f) :
    ∃ f', r.pushColumn plan set f = some f' ∧
      Fill.Holds ty (vs ++ set.active.map (scalar plan set r)) f' := by
  cases r with
  | const slot =>
      rw [ScalarRef.columnType] at hty
      cases hof : ColumnType.of (plan.consts slot) with
      | error m =>
          rw [hof] at hty
          cases hty
      | ok found =>
          rw [hof] at hty
          cases hty
          cases hv : (plan.consts slot).isNull with
          | true =>
              have hnull := Value.isNull_iff.1 hv
              simp only [ScalarRef.pushColumn, hnull]
              refine h.foldlM (fun h _ => ⟨_, rfl, ?_⟩) set.active
              simp only [scalar, hnull]
              exact h.null
          | false =>
              have hpush : ScalarRef.pushColumn plan set f (.const slot) =
                  set.active.foldlM (fun f _ => f.pushValue (plan.consts slot)) f := by
                simp only [ScalarRef.pushColumn]
                split
                · rename_i hnull
                  rw [hnull] at hv
                  cases hv
                · rfl
              rw [hpush]
              exact h.foldlM (fun h _ => h.value hof hv) set.active
  | node level =>
      refine h.foldlM (fun h pos => ?_) set.active
      rw [ScalarRef.pushAt, ChunkSet.pinned_getD, scalar]
      cases (set.chunks level).vecs 0 (set.index level pos) with
      | none => exact ⟨_, rfl, h.null⟩
      | some c => exact pushCell_holds plan hty c rfl h
  | rowId level =>
      refine h.foldlM (fun h pos => ?_) set.active
      rw [ScalarRef.pushAt, ChunkSet.pinned_getD, scalar]
      cases (set.chunks level).vecs 0 (set.index level pos) with
      | none => exact ⟨_, rfl, h.null⟩
      | some c => exact pushCell_holds plan hty c rfl h
  | col level vec col =>
      refine h.foldlM (fun h pos => ?_) set.active
      rw [ScalarRef.pushAt, ChunkSet.pinned_getD, scalar]
      cases (set.chunks level).vecs vec (set.index level pos) with
      | none => exact ⟨_, rfl, h.null⟩
      | some c => exact pushCell_holds plan hty c rfl h

end

/-! ### A worker -/

section

variable (plan : ExecPlan)

/-- The rows of some sets, each at its active position. -/
def pointsOf (sets : List ChunkSet) : List (ChunkSet × ℕ) :=
  sets.flatMap fun set => set.active.map fun pos => (set, pos)

def ScalarRef.at' (r : ScalarRef) (p : ChunkSet × ℕ) : Value := scalar plan p.1 r p.2

def ScalarRef.type (r : ScalarRef) : ColumnType := (r.columnType plan).getD .null

/-- The columns of a sink hold the rows so far, and its stretches are those of the morsels so
far, one behind the other. -/
structure ColumnSink.Holds (morsels : List (ℕ × List ChunkSet)) (ps : List (ChunkSet × ℕ))
    (sink : ColumnSink) : Prop where
  hfills : List.Forall₂ (fun r f => Fill.Holds (r.type plan) (ps.map (r.at' plan)) f) plan.items
    sink.fills
  hrows : sink.rows = ps.length
  hstarted : sink.started ≤ ps.length
  hspans : List.Forall₂ (fun m s => s.1 = m.1 ∧ s.2.2 = (pointsOf m.2).length ∧
    s.2.1 + s.2.2 ≤ sink.started ∧ (ps.drop s.2.1).take s.2.2 = pointsOf m.2) morsels sink.spans
  hapart : sink.spans.Pairwise fun s s' => s.2.1 + s.2.2 ≤ s'.2.1

variable {plan} {morsels : List (ℕ × List ChunkSet)} {ps : List (ChunkSet × ℕ)}
  {sink : ColumnSink}

theorem ColumnSink.Holds.span_le (h : sink.Holds plan morsels ps) :
    ∀ s ∈ sink.spans, s.2.1 + s.2.2 ≤ sink.started := by
  have hspans := h.hspans
  clear h
  generalize sink.spans = spans at hspans
  induction hspans with
  | nil => simp
  | cons hs _ ih =>
      rw [List.forall_mem_cons]
      exact ⟨hs.2.2.1, ih⟩

theorem pushItems_holds {items : List ScalarRef}
    (hty : ∀ r ∈ items, r.columnType plan = some (r.type plan)) (set : ChunkSet)
    {fills : List Fill}
    (h : List.Forall₂ (fun r f => Fill.Holds (r.type plan) (ps.map (r.at' plan)) f) items fills) :
    ∃ fills', pushItems plan set items fills = some fills' ∧
      List.Forall₂ (fun r f => Fill.Holds (r.type plan)
        ((ps ++ set.active.map fun pos => (set, pos)).map (r.at' plan)) f) items fills' := by
  induction h with
  | nil => exact ⟨[], rfl, .nil⟩
  | @cons r f items fills hf _ ih =>
      obtain ⟨f', hpush, hf'⟩ := pushColumn_holds plan (hty r List.mem_cons_self) set hf
      obtain ⟨fills', hpushes, hfills'⟩ := ih fun r' hr' => hty r' (List.mem_cons_of_mem r hr')
      refine ⟨f' :: fills', by rw [pushItems, hpush, hpushes]; rfl, .cons ?_ hfills'⟩
      rw [List.map_append, List.map_map]
      exact hf'

/-- Rows behind those of a sink leave its stretches where they are. -/
theorem take_drop_append {α : Type} {xs ys : List α} {start len : ℕ}
    (h : start + len ≤ xs.length) : ((xs ++ ys).drop start).take len = (xs.drop start).take len := by
  rw [List.drop_append_of_le_length (by omega), List.take_append_of_le_length]
  rw [List.length_drop]
  omega

theorem pushColumns_holds (hty : ∀ r ∈ plan.items, r.columnType plan = some (r.type plan))
    (h : sink.Holds plan morsels ps) (set : ChunkSet) :
    ∃ sink', pushColumns plan sink set = some sink' ∧ sink'.started = sink.started ∧
      sink'.Holds plan morsels (ps ++ set.active.map fun pos => (set, pos)) := by
  rw [pushColumns]
  split
  · rename_i hnone
    rw [List.eq_nil_of_length_eq_zero hnone, List.map_nil, List.append_nil]
    exact ⟨sink, rfl, rfl, h⟩
  · obtain ⟨fills', hpush, hfills'⟩ := pushItems_holds hty set h.hfills
    refine ⟨{ sink with fills := fills', rows := sink.rows + set.active.length },
      by rw [hpush]; rfl, rfl, ⟨hfills', by simp [h.hrows], ?_, ?_, h.hapart⟩⟩
    · rw [List.length_append]
      exact Nat.le_add_right_of_le h.hstarted
    · refine h.hspans.imp fun m s hs => ⟨hs.1, hs.2.1, hs.2.2.1, ?_⟩
      rw [take_drop_append (Nat.le_trans hs.2.2.1 h.hstarted)]
      exact hs.2.2.2

theorem pushSets_holds (hty : ∀ r ∈ plan.items, r.columnType plan = some (r.type plan))
    (h : sink.Holds plan morsels ps) (sets : List ChunkSet) :
    ∃ sink', sets.foldlM (pushColumns plan) sink = some sink' ∧ sink'.started = sink.started ∧
      sink'.Holds plan morsels (ps ++ pointsOf sets) := by
  induction sets generalizing ps sink with
  | nil =>
      refine ⟨sink, rfl, rfl, ?_⟩
      rw [pointsOf, List.flatMap_nil, List.append_nil]
      exact h
  | cons set sets ih =>
      obtain ⟨sink₁, hpush, hstarted, h₁⟩ := pushColumns_holds hty h set
      obtain ⟨sink₂, hpushes, hstarted', h₂⟩ := ih h₁
      rw [List.append_assoc] at h₂
      exact ⟨sink₂, by rw [List.foldlM_cons, hpush]; exact hpushes, hstarted'.trans hstarted, h₂⟩

/-- A sink between two morsels. -/
structure ColumnSink.Between (plan : ExecPlan) (morsels : List (ℕ × List ChunkSet))
    (sink : ColumnSink) : Prop where
  holds : sink.Holds plan morsels (morsels.flatMap fun m => pointsOf m.2)
  started : sink.started = (morsels.flatMap fun m => pointsOf m.2).length

theorem runMorsel_between (hty : ∀ r ∈ plan.items, r.columnType plan = some (r.type plan))
    (h : sink.Between plan morsels) (m : ℕ × List ChunkSet) :
    ∃ sink', runMorsel plan sink m = some sink' ∧ sink'.Between plan (morsels ++ [m]) := by
  obtain ⟨sink', hpush, hstarted, h'⟩ := pushSets_holds hty h.holds m.2
  have hall : (morsels ++ [m]).flatMap (fun m => pointsOf m.2) =
      morsels.flatMap (fun m => pointsOf m.2) ++ pointsOf m.2 := by simp
  have hstart : sink'.started = (morsels.flatMap fun m => pointsOf m.2).length :=
    hstarted.trans h.started
  have hlen : sink'.rows - sink'.started = (pointsOf m.2).length := by
    rw [h'.hrows, hstart, List.length_append, Nat.add_sub_cancel_left]
  refine ⟨sink'.morselDone m.1, by rw [runMorsel, hpush]; rfl, ⟨⟨?_, ?_, ?_, ?_, ?_⟩, ?_⟩⟩
  · rw [hall]
    exact h'.hfills
  · rw [hall]
    exact h'.hrows
  · rw [hall]
    exact Nat.le_of_eq h'.hrows
  · rw [hall]
    have hrows : sink'.started ≤ sink'.rows := h'.hrows ▸ h'.hstarted
    refine List.rel_append (h'.hspans.imp fun m s hs =>
      ⟨hs.1, hs.2.1, Nat.le_trans hs.2.2.1 hrows, hs.2.2.2⟩) (.cons ⟨rfl, hlen, ?_, ?_⟩ .nil)
    · exact Nat.le_of_eq (Nat.add_sub_cancel' hrows)
    · change (List.drop sink'.started _).take (sink'.rows - sink'.started) = _
      rw [hlen, hstart, List.drop_left, List.take_length]
  · change (sink'.spans ++ [_]).Pairwise _
    rw [List.pairwise_append]
    refine ⟨h'.hapart, List.pairwise_singleton .., fun s hs s' hs' => ?_⟩
    obtain rfl := List.mem_singleton.1 hs'
    exact h'.span_le s hs
  · rw [hall]
    exact h'.hrows

theorem runMorsels_between (hty : ∀ r ∈ plan.items, r.columnType plan = some (r.type plan))
    (h : sink.Between plan morsels) (more : List (ℕ × List ChunkSet)) :
    ∃ sink', more.foldlM (runMorsel plan) sink = some sink' ∧
      sink'.Between plan (morsels ++ more) := by
  induction more generalizing morsels sink with
  | nil => exact ⟨sink, rfl, by rwa [List.append_nil]⟩
  | cons m more ih =>
      obtain ⟨sink₁, hrun, h₁⟩ := runMorsel_between hty h m
      obtain ⟨sink₂, hruns, h₂⟩ := ih h₁
      rw [List.append_assoc] at h₂
      exact ⟨sink₂, by rw [List.foldlM_cons, hrun]; exact hruns, h₂⟩

end

/-! ### Stretches -/

/-- What is left of a buffer after some of its cells were taken. -/
def Buf.Left (ty : ColumnType) (vs : List Value) (kept : ℕ → Prop) (b : Buf) : Prop :=
  ∃ ws, b = Buf.of ty ws ∧ ws.length = vs.length ∧ (∀ i, kept i → ws[i]? = vs[i]?) ∧
    (ws = vs ∨ ∀ us, Buf.of ty us = complex us)

/-- The column of a worker some of whose cells were taken. -/
structure Fill.Left (ty : ColumnType) (vs : List Value) (kept : ℕ → Prop) (f : Fill) : Prop where
  hlen : f.len = vs.length
  hbuf : Buf.Left ty vs kept f.buf
  hflags : f.valid.getD (List.replicate f.len true) = vs.map fun v => !v.isNull

theorem Fill.Holds.left {ty : ColumnType} {vs : List Value} {f : Fill} (h : Fill.Holds ty vs f)
    (kept : ℕ → Prop) : Fill.Left ty vs kept f :=
  ⟨h.hlen, ⟨vs, h.hbuf, rfl, fun _ _ => rfl, .inl rfl⟩, h.hflags⟩

theorem ends_get (cell : Value → Bytes) {vs : List Value} {i : ℕ} (hi : i ≤ vs.length) :
    (ends cell vs)[i]? = some ((vs.take i).flatMap cell).length := by
  rw [ends, List.getElem?_map, List.getElem?_range (Nat.lt_succ_of_le hi)]
  rfl

theorem length_ends (cell : Value → Bytes) (vs : List Value) :
    (ends cell vs).length = vs.length + 1 := by
  rw [ends, List.length_map, List.length_range]

/-- The bytes of a stretch of cells lie between where it starts and where it ends. -/
theorem flatMap_stretch (cell : Value → Bytes) (vs : List Value) (start len : ℕ) :
    ((vs.flatMap cell).take ((vs.take (start + len)).flatMap cell).length).drop
        ((vs.take start).flatMap cell).length =
      ((vs.drop start).take len).flatMap cell := by
  have htake : vs.take (start + len) = vs.take start ++ (vs.drop start).take len := List.take_add
  have hwhole : vs.flatMap cell =
      (vs.take (start + len)).flatMap cell ++ (vs.drop (start + len)).flatMap cell := by
    rw [← List.flatMap_append, List.take_append_drop]
  rw [hwhole, List.take_left, htake, List.flatMap_append, List.drop_left]

/-- A stretch of cells behind others ends where its ends say, moved to where those end. -/
theorem ends_stretch (cell : Value → Bytes) (us vs : List Value) {start len : ℕ}
    (hlen : start + len ≤ vs.length) :
    ends cell (us ++ (vs.drop start).take len) = ends cell us ++
      (((ends cell vs).drop (start + 1)).take len).map fun off =>
        (us.flatMap cell).length + off - ((vs.take start).flatMap cell).length := by
  have hstretch : ((vs.drop start).take len).length = len := by
    rw [List.length_take, List.length_drop]
    omega
  apply List.ext_getElem?
  intro i
  by_cases hi : i < us.length + 1
  · have hi' : i ≤ us.length := Nat.lt_succ_iff.1 hi
    rw [List.getElem?_append_left (by rwa [length_ends]), ends_get cell hi',
      ends_get cell (by rw [List.length_append]; omega), List.take_append_of_le_length hi']
  · obtain ⟨j, rfl⟩ := Nat.exists_eq_add_of_le (Nat.le_of_not_lt hi)
    rw [List.getElem?_append_right (by rw [length_ends]; omega), length_ends,
      Nat.add_sub_cancel_left, List.getElem?_map, List.getElem?_take]
    by_cases hj : j < len
    · have htake : (us ++ (vs.drop start).take len).take (us.length + 1 + j) =
          us ++ (vs.drop start).take (j + 1) := by
        rw [Nat.add_assoc, List.take_length_add_append, List.take_take,
          Nat.min_eq_left (by omega), Nat.add_comm]
      have hprefix : vs.take (start + 1 + j) = vs.take start ++ (vs.drop start).take (j + 1) := by
        rw [Nat.add_assoc, Nat.add_comm 1 j]
        exact List.take_add
      rw [if_pos hj, List.getElem?_drop, ends_get cell (i := start + 1 + j) (by omega),
        ends_get cell (by rw [List.length_append, hstretch]; omega), htake, hprefix]
      simp only [List.flatMap_append, List.length_append, Option.map_some, Option.some_inj]
      omega
    · rw [if_neg hj, Option.map_none, List.getElem?_eq_none]
      rw [length_ends, List.length_append, hstretch]
      omega

theorem Buf.take_left {ty : ColumnType} (us : List Value) {vs : List Value} {kept : ℕ → Prop} {src : Buf}
    (h : Buf.Left ty vs kept src) {start len : ℕ} (hlen : start + len ≤ vs.length)
    (hkept : ∀ i, start ≤ i → i < start + len → kept i) :
    ∃ left, (Buf.of ty us).take start len src =
        some (Buf.of ty (us ++ (vs.drop start).take len), left) ∧
      ∀ kept' : ℕ → Prop, (∀ i, kept' i → kept i ∧ (i < start ∨ start + len ≤ i)) →
        Buf.Left ty vs kept' left := by
  obtain ⟨ws, rfl, hws, hsame, hor⟩ := h
  have hslice : (ws.drop start).take len = (vs.drop start).take len := by
    apply List.ext_getElem?
    intro i
    rw [List.getElem?_take, List.getElem?_take]
    split
    · rename_i hi
      rw [List.getElem?_drop, List.getElem?_drop, hsame (start + i) (hkept _ (by omega) (by omega))]
    · rfl
  have hmap : ∀ {α : Type} (cell : Value → α), us.map cell ++ ((ws.map cell).drop start).take len =
      (us ++ (vs.drop start).take len).map cell := by
    intro α cell
    rw [← List.map_drop, ← List.map_take, hslice, List.map_append]
  have hleft : ∀ kept' : ℕ → Prop, (∀ i, kept' i → kept i ∧ (i < start ∨ start + len ≤ i)) →
      Buf.Left ty vs kept' (Buf.of ty ws) := fun kept' hkept' =>
    ⟨ws, rfl, hws, fun i hi => hsame i (hkept' i hi).1, hor⟩
  cases hnew : Fill.bufNew ty with
  | null =>
      simp only [Buf.of, hnew] at hleft ⊢
      exact ⟨null, rfl, hleft⟩
  | bool =>
      simp only [Buf.of, hnew] at hleft ⊢
      exact ⟨_, by rw [Buf.take, hmap], hleft⟩
  | int =>
      simp only [Buf.of, hnew] at hleft ⊢
      exact ⟨_, by rw [Buf.take, hmap], hleft⟩
  | float =>
      simp only [Buf.of, hnew] at hleft ⊢
      exact ⟨_, by rw [Buf.take, hmap], hleft⟩
  | str =>
      have hvs : ws = vs := by
        refine hor.resolve_right fun hcomplex => ?_
        have hnone := hcomplex []
        rw [Buf.of, hnew] at hnone
        cases hnone
      subst hvs
      simp only [Buf.of, hnew] at hleft ⊢
      have hlast : (ends Value.asText us).getLast? = some (us.flatMap Value.asText).length := by
        rw [List.getLast?_eq_getElem?, length_ends, Nat.add_sub_cancel,
          ends_get _ (Nat.le_refl _), List.take_length]
      refine ⟨_, ?_, hleft⟩
      rw [Buf.take, ends_get _ (Nat.le_trans (Nat.le_add_right ..) hlen), ends_get _ hlen, hlast]
      simp only [Option.bind_eq_bind, Option.bind_some, Option.pure_def, flatMap_stretch,
        ends_stretch _ us ws hlen, List.flatMap_append]
  | complex =>
      simp only [Buf.of, hnew, Buf.take, hslice] at hleft ⊢
      refine ⟨_, rfl, fun kept' hkept' => ?_⟩
      have hslen : ((vs.drop start).take len).length = len := by
        rw [List.length_take, List.length_drop]
        omega
      refine ⟨ws.take start ++ List.replicate len .null ++ ws.drop (start + len), ?_, ?_, ?_, ?_⟩
      · simp only [Buf.of, hnew, hslen]
      · simp only [List.length_append, List.length_take, List.length_replicate, List.length_drop,
          hws]
        omega
      · intro i hi
        obtain ⟨hold, hout⟩ := hkept' i hi
        rw [← hsame i hold]
        obtain hlt | hge := hout
        · have htake : i < (ws.take start).length := by
            rw [List.length_take, hws]
            omega
          rw [List.append_assoc, List.getElem?_append_left htake, List.getElem?_take, if_pos hlt]
        · have hbefore : (ws.take start ++ List.replicate len Value.null).length = start + len := by
            rw [List.length_append, List.length_take, List.length_replicate, hws]
            omega
          rw [List.getElem?_append_right (by rw [hbefore]; exact hge), hbefore,
            List.getElem?_drop, Nat.add_sub_cancel' hge]
      · exact .inr fun us => by rw [Buf.of, hnew]

theorem Fill.takeFrom_holds {ty : ColumnType} {us vs : List Value} {kept : ℕ → Prop}
    {f src : Fill} (h : Fill.Holds ty us f) (hsrc : Fill.Left ty vs kept src) {start len : ℕ}
    (hlen : start + len ≤ vs.length) (hkept : ∀ i, start ≤ i → i < start + len → kept i) :
    ∃ f' src', f.takeFrom src start len = some (f', src') ∧
      Fill.Holds ty (us ++ (vs.drop start).take len) f' ∧
      ∀ kept' : ℕ → Prop, (∀ i, kept' i → kept i ∧ (i < start ∨ start + len ≤ i)) →
        Fill.Left ty vs kept' src' := by
  have hslen : ((vs.drop start).take len).length = len := by
    rw [List.length_take, List.length_drop]
    omega
  rw [takeFrom]
  split
  · rename_i hzero
    subst hzero
    rw [List.take_zero, List.append_nil]
    refine ⟨f, src, rfl, h, fun kept' hkept' => ⟨hsrc.hlen, ?_, hsrc.hflags⟩⟩
    obtain ⟨ws, hws, hwlen, hsame, hor⟩ := hsrc.hbuf
    exact ⟨ws, hws, hwlen, fun i hi => hsame i (hkept' i hi).1, hor⟩
  · obtain ⟨left, htake, hleft⟩ := Buf.take_left us hsrc.hbuf hlen hkept
    refine ⟨⟨f.ty, Buf.of ty (us ++ (vs.drop start).take len), _, f.len + len⟩,
      { src with buf := left }, by rw [h.hbuf, htake]; rfl, ⟨h.hty, ?_, rfl, ?_⟩,
      fun kept' hkept' => ⟨hsrc.hlen, hleft kept' hkept', hsrc.hflags⟩⟩
    · rw [List.length_append, hslen, ← h.hlen]
    · have hflags := h.hflags
      have hflags' := hsrc.hflags
      rw [List.map_append, ← hflags]
      cases hvalid : src.valid with
      | none =>
          rw [hvalid, Option.getD_none] at hflags'
          have hones : ((vs.drop start).take len).map (fun v => !v.isNull) =
              List.replicate len true := by
            rw [List.map_take, List.map_drop, ← hflags', List.drop_replicate, List.take_replicate,
              hsrc.hlen, Nat.min_eq_left (by omega)]
          rw [hones]
          cases f.valid with
          | none => exact List.replicate_add ..
          | some flags => rfl
      | some flags =>
          rw [hvalid, Option.getD_some] at hflags'
          rw [List.map_take, List.map_drop, ← hflags']
          rfl

/-- Two stretches share no row. -/
def Span.Apart (a b : Span) : Prop :=
  a.worker = b.worker → a.start + a.len ≤ b.start ∨ b.start + b.len ≤ a.start

/-- The rows of a stretch, of what the workers have. -/
def Span.slice {α : Type} (of : List (List α)) (s : Span) : List α :=
  (((of[s.worker]?).getD []).drop s.start).take s.len

/-- The rows of a worker that stretches still ask for. -/
def Asked (order : List Span) (w i : ℕ) : Prop :=
  ∃ s ∈ order, s.worker = w ∧ s.start ≤ i ∧ i < s.start + s.len

theorem Fill.Left.mono {ty : ColumnType} {vs : List Value} {kept kept' : ℕ → Prop} {f : Fill}
    (h : Fill.Left ty vs kept f) (hkept : ∀ i, kept' i → kept i) : Fill.Left ty vs kept' f := by
  obtain ⟨ws, hws, hlen, hsame, hor⟩ := h.hbuf
  exact ⟨h.hlen, ⟨ws, hws, hlen, fun i hi => hsame i (hkept i hi), hor⟩, h.hflags⟩

theorem Fill.takeAll_holds {ty : ColumnType} {vss : List (List Value)} {order : List Span}
    {us : List Value} {f : Fill} {srcs : List Fill} (h : Fill.Holds ty us f)
    (hsrcs : ∀ w vs, vss[w]? = some vs → ∃ src, srcs[w]? = some src ∧
      Fill.Left ty vs (Asked order w) src)
    (hspans : ∀ s ∈ order, ∃ vs, vss[s.worker]? = some vs ∧ s.start + s.len ≤ vs.length)
    (hapart : order.Pairwise Span.Apart) :
    ∃ f', takeAll order f srcs = some f' ∧
      Fill.Holds ty (us ++ order.flatMap (Span.slice vss)) f' := by
  induction order generalizing us f srcs with
  | nil =>
      refine ⟨f, rfl, ?_⟩
      rw [List.flatMap_nil, List.append_nil]
      exact h
  | cons s order ih =>
      obtain ⟨hs, hrest⟩ := List.forall_mem_cons.1 hspans
      obtain ⟨hfirst, hapart⟩ := List.pairwise_cons.1 hapart
      obtain ⟨vs, hvs, hlen⟩ := hs
      obtain ⟨src, hsrc, hleft⟩ := hsrcs s.worker vs hvs
      obtain ⟨f₁, src', htake, h₁, hleft'⟩ := Fill.takeFrom_holds h hleft hlen fun i hge hlt =>
        ⟨s, List.mem_cons_self, rfl, hge, hlt⟩
      have hsrcs' : ∀ w vs, vss[w]? = some vs → ∃ src, (srcs.set s.worker src')[w]? = some src ∧
          Fill.Left ty vs (Asked order w) src := by
        intro w vs' hvs'
        by_cases hw : w = s.worker
        · subst hw
          obtain rfl := Option.some.inj (hvs.symm.trans hvs')
          have hin := (List.getElem?_eq_some_iff.1 hsrc).1
          refine ⟨src', List.getElem?_set_self hin, hleft' _ ?_⟩
          rintro i ⟨t, ht, htw, hge, hlt⟩
          refine ⟨⟨t, List.mem_cons_of_mem s ht, htw, hge, hlt⟩, ?_⟩
          have := hfirst t ht htw.symm
          omega
        · obtain ⟨src₂, hsrc₂, hleft₂⟩ := hsrcs w vs' hvs'
          refine ⟨src₂, by rwa [List.getElem?_set_ne (Ne.symm hw)], hleft₂.mono ?_⟩
          rintro i ⟨t, ht, hrest⟩
          exact ⟨t, List.mem_cons_of_mem s ht, hrest⟩
      obtain ⟨f₂, htakes, h₂⟩ := ih h₁ hsrcs' hrest hapart
      refine ⟨f₂, ?_, ?_⟩
      · rw [takeAll, hsrc]
        simp only [Option.bind_eq_bind, Option.bind_some, htake, htakes]
      · rw [List.flatMap_cons, Span.slice, hvs, Option.getD_some, ← List.append_assoc]
        exact h₂

/-! ### The columns that are kept -/

theorem Buf.held_value (repair : Bytes → String) {ty : ColumnType} {vs : List Value} {i : ℕ}
    {v : Value} (hv : vs[i]? = some v) (hof : ColumnType.of v = .ok ty) :
    (Buf.of ty vs).held.lent.value repair ty i = some v := by
  have hshape := ColumnType.shape_of hof
  cases ty with
  | null =>
      obtain rfl := hshape
      rfl
  | bool =>
      obtain ⟨b, rfl⟩ := hshape
      simp [Buf.of, Fill.bufNew, Buf.held, HeldData.lent, ColumnData.value, PackedBits.test_pack,
        hv, Value.asBool]
  | int =>
      obtain ⟨n, hn, rfl⟩ := hshape
      simp [Buf.of, Fill.bufNew, Buf.held, HeldData.lent, ColumnData.value, hv, Value.asInt]
  | float =>
      obtain ⟨x, rfl⟩ := hshape
      simp [Buf.of, Fill.bufNew, Buf.held, HeldData.lent, ColumnData.value, hv, Value.asFloat]
  | str =>
      obtain ⟨s, rfl⟩ := hshape
      simp only [Buf.of, Fill.bufNew, Buf.held, HeldData.lent, ColumnData.value]
      rw [StrColumn.cell_ends Value.asText (Offsets.items_narrow ..) hv]
      simp [Value.asText, fromUtf8Lossy, ofUtf8_utf8]
  | _ => exact hv

/-- The type a column that is kept has. An empty one has the type it was declared with. -/
def keptType (ty : ColumnType) (vs : List Value) : ColumnType :=
  if vs = [] then ty else ty.settled vs

/-- A column that holds the values of its rows says them once it is kept. -/
theorem Fill.finish_says (repair : Bytes → String) {ty : ColumnType} {vs : List Value} {f : Fill}
    (h : Fill.Holds ty vs f) (htakes : ∀ v ∈ vs, ty.Takes v) (name : String) :
    Column.Says repair name (keptType ty vs) vs
      ⟨(f.finish name).name, (f.finish name).ty, (f.finish name).data.lent,
        (f.finish name).validity, vs.length⟩ := by
  have hnulls : (f.valid.getD []).countP (fun flag => !flag) = vs.countP Value.isNull := by
    have hflags := h.hflags
    have hmap : (vs.map fun v => !v.isNull).countP (fun flag => !flag) =
        vs.countP Value.isNull := by
      rw [List.countP_map]
      congr 1
      funext v
      simp
    cases hvalid : f.valid with
    | some flags =>
        rw [hvalid, Option.getD_some] at hflags
        rw [Option.getD_some, hflags, hmap]
    | none =>
        rw [hvalid, Option.getD_none] at hflags
        rw [Option.getD_none, ← hmap, ← hflags, List.countP_replicate]
        rfl
  have hall : vs.countP Value.isNull = vs.length ↔ vs.all Value.isNull = true := by
    rw [List.countP_eq_length, List.all_eq_true]
  have hempty : 0 < vs.length ↔ vs ≠ [] := List.length_pos_iff
  have hbit : ∀ i v, vs[i]? = some v → 0 < vs.countP Value.isNull →
      (PackedBits.pack (f.valid.getD [])).test i = !v.isNull := by
    intro i v hv hpos
    have hflags := h.hflags
    cases hvalid : f.valid with
    | some flags =>
        rw [hvalid, Option.getD_some] at hflags
        rw [PackedBits.test_pack, Option.getD_some, hflags, List.getElem?_map, hv]
        rfl
    | none =>
        rw [← hnulls, hvalid] at hpos
        exact absurd hpos (Nat.lt_irrefl 0)
  by_cases hnull : vs.countP Value.isNull = vs.length ∧ 0 < vs.length
  · have hne : vs ≠ [] := hempty.1 hnull.2
    have hsettled : keptType ty vs = .null := by
      rw [keptType, if_neg hne, ColumnType.settled, if_pos (hall.1 hnull.1)]
    refine ⟨rfl, ?_, rfl, fun i v hv => ?_⟩
    · simp only [finish, hnulls, h.hlen, if_pos hnull, hsettled]
    · have hv' : v = .null :=
        Value.isNull_iff.1 (List.all_eq_true.1 (hall.1 hnull.1) v (List.mem_of_getElem? hv))
      simp [Column.cell, finish, hnulls, h.hlen, hnull, HeldData.lent, ColumnData.value, hv']
  · have hsettled : keptType ty vs = ty := by
      rw [keptType, ColumnType.settled]
      split
      · rfl
      · rename_i hne
        exact if_neg fun ha => hnull ⟨hall.2 ha, hempty.2 hne⟩
    refine ⟨rfl, ?_, rfl, fun i v hv => ?_⟩
    · simp only [finish, hnulls, h.hlen, if_neg hnull, h.hty, hsettled]
    · have hmem : v ∈ vs := List.mem_of_getElem? hv
      have hpos : 0 < vs.length := List.length_pos_of_mem hmem
      have hle : vs.countP Value.isNull < vs.length :=
        Nat.lt_of_le_of_ne List.countP_le_length fun heq => hnull ⟨heq, hpos⟩
      have hvalue : ColumnType.of v = .ok ty → f.buf.held.lent.value repair ty i = some v := by
        intro hof
        rw [h.hbuf]
        exact Buf.held_value repair hv hof
      simp only [Column.cell, finish, hnulls, h.hlen, if_neg hnull, h.hty]
      cases hv' : v.isNull with
      | true =>
          have hcount : 0 < vs.countP Value.isNull := List.countP_pos_iff.2 ⟨v, hmem, hv'⟩
          have htest := hbit i v hv hcount
          obtain rfl := Value.isNull_iff.1 hv'
          simp [hcount, hle, Validity.isValid, htest, Value.isNull]
      | false =>
          have hof : ColumnType.of v = .ok ty := by
            refine (htakes v hmem).resolve_left fun hn => ?_
            rw [Value.isNull_iff.2 hn] at hv'
            cases hv'
          by_cases hcount : 0 < vs.countP Value.isNull
          · simp [hcount, hle, Validity.isValid, hbit i v hv hcount, hv', hvalue hof]
          · simp [hcount, hvalue hof]

/-! ### All the workers -/

section

variable {plan : ExecPlan}

theorem scalar_takes {r : ScalarRef} {ty : ColumnType} (hty : r.columnType plan = some ty)
    (set : ChunkSet) (pos : ℕ) : ty.Takes (scalar plan set r pos) := by
  cases r with
  | const slot =>
      rw [ScalarRef.columnType] at hty
      cases hof : ColumnType.of (plan.consts slot) with
      | error m =>
          rw [hof] at hty
          cases hty
      | ok found =>
          rw [hof] at hty
          cases hty
          exact .inr hof
  | node level =>
      cases hty
      rw [scalar]
      cases (set.chunks level).vecs 0 (set.index level pos) with
      | none => exact .inl rfl
      | some c => exact .inr (by rw [ColumnType.of])
  | rowId level =>
      cases hty
      rw [scalar]
      cases (set.chunks level).vecs 0 (set.index level pos) with
      | none => exact .inl rfl
      | some c => exact .inr (by rw [ColumnType.of])
  | col level vec col =>
      rw [scalar]
      cases (set.chunks level).vecs vec (set.index level pos) with
      | none => exact .inl rfl
      | some c => exact .inr (ColType.of_value plan hty c)

def workerPoints (morsels : List (ℕ × List ChunkSet)) : List (ChunkSet × ℕ) :=
  morsels.flatMap fun m => pointsOf m.2

theorem forall₂_getElem? {α β : Type} {R : α → β → Prop} {xs : List α} {ys : List β}
    (h : List.Forall₂ R xs ys) {i : ℕ} {y : β} (hy : ys[i]? = some y) :
    ∃ x, xs[i]? = some x ∧ R x y := by
  obtain ⟨hi, rfl⟩ := List.getElem?_eq_some_iff.1 hy
  have hi' : i < xs.length := h.length_eq ▸ hi
  exact ⟨xs[i], List.getElem?_eq_getElem hi', (List.forall₂_iff_get.1 h).2 i hi' hi⟩

variable {workers : List (List (ℕ × List ChunkSet))} {partials : List ColumnSink}

/-- The stretches of the workers, before they are put in order. -/
def spansOf (partials : List ColumnSink) (n : ℕ) : List Span :=
  (partials.zipIdx n).flatMap fun p => p.1.spans.map fun s => ⟨s.1, p.2, s.2.1, s.2.2⟩

theorem spansOf_slices (h : List.Forall₂ (fun ms p => p.Between plan ms) workers partials)
    {n : ℕ} (pss : List (List (ChunkSet × ℕ)))
    (hpss : ∀ j ms, workers[j]? = some ms → pss[n + j]? = some (workerPoints ms)) :
    (spansOf partials n).map (fun s => (s.morsel, s.slice pss)) =
      workers.flatten.map fun m => (m.1, pointsOf m.2) := by
  induction h generalizing n with
  | nil => rfl
  | @cons ms p workers partials hp _ ih =>
      have hrest := ih (n := n + 1) fun j ms' hms' => by
        rw [Nat.add_assoc, Nat.add_comm 1 j]
        exact hpss (j + 1) ms' hms'
      have hfirst : pss[n]? = some (workerPoints ms) := hpss 0 ms rfl
      rw [spansOf] at hrest
      rw [spansOf, List.zipIdx_cons, List.flatMap_cons, List.map_append, hrest, List.flatten_cons,
        List.map_append, List.map_map]
      congr 1
      have hspans := hp.holds.hspans
      have hmap : ∀ {ms' : List (ℕ × List ChunkSet)} {spans : List (ℕ × ℕ × ℕ)},
          List.Forall₂ (fun m s => s.1 = m.1 ∧ s.2.2 = (pointsOf m.2).length ∧
            s.2.1 + s.2.2 ≤ p.started ∧
            ((workerPoints ms).drop s.2.1).take s.2.2 = pointsOf m.2) ms' spans →
          spans.map ((fun s => (s.morsel, s.slice pss)) ∘
              fun s => (⟨s.1, n, s.2.1, s.2.2⟩ : Span)) =
            ms'.map fun m => (m.1, pointsOf m.2) := by
        intro ms' spans hall
        induction hall with
        | nil => rfl
        | @cons m s ms' spans hs _ ih' =>
            rw [List.map_cons, List.map_cons, ih']
            congr 1
            simp only [Function.comp, Span.slice, hfirst, Option.getD_some, hs.1, hs.2.2.2]
      exact hmap hspans

theorem spansOf_fit (h : List.Forall₂ (fun ms p => p.Between plan ms) workers partials) :
    ∀ s ∈ spansOf partials 0, ∃ ps, (workers.map workerPoints)[s.worker]? = some ps ∧
      s.start + s.len ≤ ps.length := by
  intro s hs
  obtain ⟨⟨p, w⟩, hp, hs⟩ := List.mem_flatMap.1 hs
  obtain ⟨t, ht, rfl⟩ := List.mem_map.1 hs
  obtain ⟨ms, hms, hbetween⟩ := forall₂_getElem? h (List.mk_mem_zipIdx_iff_getElem?.1 hp)
  refine ⟨workerPoints ms, by rw [List.getElem?_map, hms]; rfl, ?_⟩
  exact Nat.le_trans (hbetween.holds.span_le t ht) hbetween.holds.hstarted

theorem spansOf_apart (h : List.Forall₂ (fun ms p => p.Between plan ms) workers partials) :
    (spansOf partials 0).Pairwise Span.Apart := by
  rw [spansOf, List.pairwise_flatMap]
  refine ⟨fun p hp => ?_, ?_⟩
  · obtain ⟨ms, _, hbetween⟩ := forall₂_getElem? h (List.mem_zipIdx_iff_getElem?.1 hp)
    rw [List.pairwise_map]
    exact hbetween.holds.hapart.imp fun hle _ => .inl hle
  · have hsnd : ((partials.zipIdx 0).map Prod.snd).Pairwise (· < ·) := by
      rw [List.zipIdx_map_snd]
      exact List.pairwise_lt_range'
    rw [List.pairwise_map] at hsnd
    refine hsnd.imp fun {a b} hlt s hs t ht hw => ?_
    obtain ⟨_, _, rfl⟩ := List.mem_map.1 hs
    obtain ⟨_, _, rfl⟩ := List.mem_map.1 ht
    exact absurd hw (Nat.ne_of_lt hlt)

/-- What is in the order of its keys, one after the other, is the one list in that order. -/
theorem eq_of_perm_of_keys {α : Type} (key : α → ℕ) {xs ys : List α} (hperm : xs.Perm ys)
    (hasc : ys.Pairwise fun a b => key a < key b) (hle : xs.Pairwise fun a b => key a ≤ key b) :
    xs = ys := by
  have hne : xs.Pairwise fun a b => key a ≠ key b :=
    (hperm.pairwise_iff fun hab => Ne.symm hab).2 (hasc.imp Nat.ne_of_lt)
  exact hperm.eq_of_pairwise (fun a b _ _ hab hba => absurd hba (Nat.lt_asymm hab))
    ((hle.and hne).imp fun h => Nat.lt_of_le_of_ne h.1 h.2) hasc

theorem Span.le_morsel {a b : Span} (h : Span.le a b = true) : a.morsel ≤ b.morsel := by
  rw [Span.le, decide_eq_true_eq, Prod.Lex.le_iff] at h
  obtain h | h := h
  · exact Nat.le_of_lt h
  · exact Nat.le_of_eq h.1

theorem pairwise_spanOrder (partials : List ColumnSink) :
    (spanOrder partials).Pairwise fun a b => a.morsel ≤ b.morsel := by
  have htrans : ∀ a b c : Span, Span.le a b = true → Span.le b c = true → Span.le a c = true := by
    intro a b c hab hbc
    rw [Span.le, decide_eq_true_eq] at hab hbc ⊢
    exact le_trans hab hbc
  have htotal : ∀ a b : Span, (Span.le a b || Span.le b a) = true := by
    intro a b
    rw [Span.le, Span.le, Bool.or_eq_true, decide_eq_true_eq, decide_eq_true_eq]
    exact le_total _ _
  have hsort := List.pairwise_mergeSort htrans htotal (spansOf partials 0)
  exact hsort.imp Span.le_morsel

/-- The stretches in the order of the morsels have the rows of all the morsels in turn. -/
theorem spanOrder_slices (h : List.Forall₂ (fun ms p => p.Between plan ms) workers partials)
    {morsels : List (ℕ × List ChunkSet)} (hperm : workers.flatten.Perm morsels)
    (hasc : morsels.Pairwise fun a b => a.1 < b.1) :
    (spanOrder partials).flatMap (Span.slice (workers.map workerPoints)) =
      workerPoints morsels := by
  have hslices := spansOf_slices h (n := 0) (workers.map workerPoints) fun j ms hms => by
    rw [Nat.zero_add, List.getElem?_map, hms]
    rfl
  have hsorted : (spanOrder partials).map
        (fun s => (s.morsel, s.slice (workers.map workerPoints))) =
      morsels.map fun m => (m.1, pointsOf m.2) := by
    apply eq_of_perm_of_keys Prod.fst
    · exact ((List.mergeSort_perm _ _).map _).trans (hslices ▸ hperm.map _)
    · exact List.pairwise_map.2 hasc
    · exact List.pairwise_map.2 (pairwise_spanOrder partials)
  have hsnd := congrArg (List.flatMap Prod.snd) hsorted
  rw [List.flatMap_map, List.flatMap_map] at hsnd
  exact hsnd

theorem column_srcs (h : List.Forall₂ (fun ms p => p.Between plan ms) workers partials) {ix : ℕ}
    {r : ScalarRef} (hr : plan.items[ix]? = some r) :
    ∃ srcs, partials.mapM (fun p => p.fills[ix]?) = some srcs ∧
      List.Forall₂ (fun ms src => Fill.Holds (r.type plan)
        ((workerPoints ms).map (r.at' plan)) src) workers srcs := by
  induction h with
  | nil => exact ⟨[], rfl, .nil⟩
  | @cons ms p workers partials hp _ ih =>
      obtain ⟨srcs, hsrcs, hholds⟩ := ih
      have hflip := hp.holds.hfills.flip
      obtain ⟨f, hf, hfill⟩ := forall₂_getElem? hflip hr
      exact ⟨f :: srcs, by rw [List.mapM_cons, hf, hsrcs]; rfl, .cons hfill hholds⟩

theorem mergeColumn_holds (h : List.Forall₂ (fun ms p => p.Between plan ms) workers partials)
    (hsome : workers ≠ []) {morsels : List (ℕ × List ChunkSet)}
    (hperm : workers.flatten.Perm morsels) (hasc : morsels.Pairwise fun a b => a.1 < b.1) {ix : ℕ}
    {r : ScalarRef} (hr : plan.items[ix]? = some r) :
    ∃ f, mergeColumn partials (spanOrder partials) ix = some f ∧
      Fill.Holds (r.type plan) ((workerPoints morsels).map (r.at' plan)) f := by
  obtain ⟨srcs, hsrcs, hholds⟩ := column_srcs h hr
  have hvss : ∀ w vs, (workers.map fun ms => (workerPoints ms).map (r.at' plan))[w]? = some vs →
      ∃ src, srcs[w]? = some src ∧ Fill.Left (r.type plan) vs (Asked (spanOrder partials) w) src := by
    intro w vs hvs
    rw [List.getElem?_map, Option.map_eq_some_iff] at hvs
    obtain ⟨ms, hms, rfl⟩ := hvs
    obtain ⟨src, hsrc, hfill⟩ := forall₂_getElem? hholds.flip hms
    exact ⟨src, hsrc, hfill.left _⟩
  have hmem : ∀ s ∈ spanOrder partials, s ∈ spansOf partials 0 := fun s hs =>
    (List.mergeSort_perm _ _).mem_iff.1 hs
  have hfit : ∀ s ∈ spanOrder partials, ∃ vs,
      (workers.map fun ms => (workerPoints ms).map (r.at' plan))[s.worker]? = some vs ∧
        s.start + s.len ≤ vs.length := by
    intro s hs
    obtain ⟨ps, hps, hle⟩ := spansOf_fit h s (hmem s hs)
    rw [List.getElem?_map, Option.map_eq_some_iff] at hps
    obtain ⟨ms, hms, rfl⟩ := hps
    exact ⟨_, by rw [List.getElem?_map, hms]; rfl, by rwa [List.length_map]⟩
  have hapart : (spanOrder partials).Pairwise Span.Apart :=
    ((List.mergeSort_perm _ _).pairwise_iff fun hab hw => (hab hw.symm).symm).2 (spansOf_apart h)
  obtain ⟨f, hf, hfill⟩ := Fill.takeAll_holds (Fill.new_holds (r.type plan)) hvss hfit hapart
  have hslice : (Span.slice (workers.map fun ms => (workerPoints ms).map (r.at' plan))) =
      fun s => (s.slice (workers.map workerPoints)).map (r.at' plan) := by
    funext s
    rw [Span.slice, Span.slice, List.getElem?_map, List.getElem?_map]
    cases workers[s.worker]? with
    | none => simp
    | some ms => simp [List.map_take, List.map_drop]
  rw [List.nil_append, hslice, ← List.map_flatMap, spanOrder_slices h hperm hasc] at hfill
  refine ⟨f, ?_, hfill⟩
  cases hholds with
  | nil => exact absurd rfl hsome
  | cons hfirst _ =>
      rw [mergeColumn, hsrcs]
      simp only [Option.bind_eq_bind, Option.bind_some, List.head?_cons, hfirst.hty, hf]

theorem mapM_range_holds {α β : Type} {R : α → β → Prop} {g : ℕ → Option β} (items : List α)
    (h : ∀ ix r, items[ix]? = some r → ∃ f, g ix = some f ∧ R r f) :
    ∃ fs, (List.range items.length).mapM g = some fs ∧ List.Forall₂ R items fs := by
  induction items using List.reverseRecOn with
  | nil => exact ⟨[], rfl, .nil⟩
  | append_singleton items r ih =>
      obtain ⟨fs, hfs, hholds⟩ := ih fun ix r' hr' => h ix r' (by
        rw [List.getElem?_append_left (List.getElem?_eq_some_iff.1 hr').1]
        exact hr')
      obtain ⟨f, hf, hholds'⟩ := h items.length r (by simp)
      refine ⟨fs ++ [f], ?_, List.rel_append hholds (.cons hholds' .nil)⟩
      rw [List.length_append, List.length_singleton, List.range_succ, List.mapM_append, hfs]
      simp [hf]

/-- The columns of all the workers hold the rows of the morsels in turn. -/
theorem merge_holds (names : List String)
    (h : List.Forall₂ (fun ms p => p.Between plan ms) workers partials) (hsome : workers ≠ [])
    {morsels : List (ℕ × List ChunkSet)} (hperm : workers.flatten.Perm morsels)
    (hasc : morsels.Pairwise fun a b => a.1 < b.1)
    (hsorted : ∀ ms ∈ workers, ms.Pairwise fun a b => a.1 < b.1) :
    ∃ fills, merge names partials = some (finish names fills (workerPoints morsels).length) ∧
      List.Forall₂ (fun r f => Fill.Holds (r.type plan)
        ((workerPoints morsels).map (r.at' plan)) f) plan.items fills := by
  cases h with
  | nil => exact absurd rfl hsome
  | @cons ms p ws ps hp hps =>
      cases hps with
      | nil =>
          rw [List.flatten_singleton] at hperm
          have hms : ms = morsels := eq_of_perm_of_keys Prod.fst hperm hasc
            ((hsorted ms List.mem_cons_self).imp Nat.le_of_lt)
          subst hms
          exact ⟨p.fills, by rw [merge, hp.holds.hrows]; rfl, hp.holds.hfills⟩
      | @cons ms' p' ws ps hp' hps =>
          have h : List.Forall₂ (fun ms p => p.Between plan ms) (ms :: ms' :: ws) (p :: p' :: ps) :=
            .cons hp (.cons hp' hps)
          obtain ⟨fills, hfills, hholds⟩ := mapM_range_holds
            (R := fun r f => Fill.Holds (r.type plan)
              ((workerPoints morsels).map (r.at' plan)) f) plan.items
            fun ix r hr => mergeColumn_holds h hsome hperm hasc hr
          have hrows : ((p :: p' :: ps).map ColumnSink.rows).sum =
              (workerPoints morsels).length := by
            have hall : ∀ {ws : List (List (ℕ × List ChunkSet))} {ps : List ColumnSink},
                List.Forall₂ (fun ms p => ColumnSink.Between plan ms p) ws ps →
                (ps.map ColumnSink.rows).sum = (workerPoints ws.flatten).length := by
              intro ws ps h
              induction h with
              | nil => rfl
              | @cons ms p ws ps hp _ ih =>
                  rw [List.map_cons, List.sum_cons, ih, List.flatten_cons, workerPoints,
                    workerPoints, List.flatMap_append, List.length_append, hp.holds.hrows]
            rw [hall h]
            exact (hperm.flatMap_right fun m => pointsOf m.2).length_eq
          refine ⟨fills, ?_, hholds⟩
          rw [merge]
          · simp only [List.head?_cons, Option.map_some, Option.getD_some,
              ← hp.holds.hfills.length_eq, hfills, hrows]
            rfl
          · simp

/-! ### Rows and columns -/

def rowAt (plan : ExecPlan) (p : ChunkSet × ℕ) : List Value :=
  plan.items.map fun r => r.at' plan p

theorem foldl_pushRows (plan : ExecPlan) (rows : List (List Value)) (sets : List ChunkSet) :
    sets.foldl (pushRows plan) rows = rows ++ (pointsOf sets).map (rowAt plan) := by
  induction sets generalizing rows with
  | nil =>
      rw [pointsOf, List.flatMap_nil, List.map_nil, List.append_nil]
      rfl
  | cons set sets ih =>
      have hcons : pointsOf (set :: sets) =
          (set.active.map fun pos => (set, pos)) ++ pointsOf sets := List.flatMap_cons
      rw [List.foldl_cons, ih, pushRows, hcons, List.map_append, List.append_assoc, List.map_map]
      rfl

theorem finishRows_eq (hpost : plan.post = []) {morsels : List (ℕ × List ChunkSet)}
    (hperm : workers.flatten.Perm morsels) (hasc : morsels.Pairwise fun a b => a.1 < b.1) :
    finishRows plan workers = (workerPoints morsels).map (rowAt plan) := by
  have hbatch : ∀ ms, rowBatches plan ms =
      ms.map fun m => (m.1, (pointsOf m.2).map (rowAt plan)) := by
    intro ms
    rw [rowBatches]
    simp only [foldl_pushRows, List.nil_append]
  have hall : workers.flatMap (rowBatches plan) =
      workers.flatten.map fun m => (m.1, (pointsOf m.2).map (rowAt plan)) := by
    rw [List.flatMap_def, List.map_flatten, List.map_congr_left fun ms _ => hbatch ms]
  have hsort : ((workers.flatMap (rowBatches plan)).mergeSort fun a b =>
      decide (a.1 ≤ b.1)).Pairwise fun a b => decide (a.1 ≤ b.1) = true :=
    List.pairwise_mergeSort (fun a b c hab hbc => by
      rw [decide_eq_true_eq] at hab hbc ⊢
      exact Nat.le_trans hab hbc) (fun a b => by
      simpa using Nat.le_total a.1 b.1) _
  have hsorted : ((workers.flatMap (rowBatches plan)).mergeSort fun a b =>
      decide (a.1 ≤ b.1)) = morsels.map fun m => (m.1, (pointsOf m.2).map (rowAt plan)) := by
    apply eq_of_perm_of_keys Prod.fst
    · exact (List.mergeSort_perm _ _).trans (hall ▸ hperm.map _)
    · exact List.pairwise_map.2 hasc
    · exact hsort.imp fun h => of_decide_eq_true h
  rw [finishRows, hpost]
  dsimp only [applyPost]
  rw [hsorted, List.flatMap_map, workerPoints, List.map_flatMap]

/-- Two readings of the same rows, column by column. -/
structure ColumnsAgree (repair : Bytes → String) (rows : List (List Value)) (a b : Columns) :
    Prop where
  arows : a.rows = rows.length
  brows : b.rows = rows.length
  columns : List.Forall₂ (fun c d => c.name = d.name ∧ c.ty = d.ty ∧ c.len = d.len ∧
    ∀ i < rows.length, c.cell repair i = d.cell repair i) a.columns b.columns
  cells : ∀ i row, rows[i]? = some row → a.columns.mapM (fun c => c.cell repair i) = some row

end

/-- The morsels and where they stand in the scan. -/
def indexed (morsels : List (List ChunkSet)) : List (ℕ × List ChunkSet) :=
  morsels.zipIdx.map Prod.swap

/-- What each of the workers runs: those of the morsels that are its own, as they come. -/
def assigned {k : ℕ} (morsels : List (List ChunkSet)) (assign : ℕ → Fin (k + 1)) :
    List (List (ℕ × List ChunkSet)) :=
  List.ofFn fun w => (indexed morsels).filter fun m => assign m.1 = w

theorem indexed_asc (morsels : List (List ChunkSet)) :
    (indexed morsels).Pairwise fun a b => a.1 < b.1 := by
  have hfst : (morsels.zipIdx.map Prod.snd).Pairwise (· < ·) := by
    rw [List.zipIdx_map_snd]
    exact List.pairwise_lt_range'
  rw [indexed, List.pairwise_map]
  exact List.pairwise_map.1 hfst

theorem assigned_perm {k : ℕ} (morsels : List (List ChunkSet)) (assign : ℕ → Fin (k + 1)) :
    (assigned morsels assign).flatten.Perm (indexed morsels) := by
  have hnodup : (indexed morsels).Nodup := by
    apply (indexed_asc morsels).imp
    rintro a b hlt rfl
    exact Nat.lt_irrefl a.1 hlt
  rw [List.perm_ext_iff_of_nodup _ hnodup]
  · intro m
    rw [List.mem_flatten]
    constructor
    · rintro ⟨ms, hms, hm⟩
      obtain ⟨w, rfl⟩ := List.mem_ofFn.1 hms
      exact (List.mem_filter.1 hm).1
    · intro hm
      exact ⟨_, List.mem_ofFn.2 ⟨assign m.1, rfl⟩, List.mem_filter.2 ⟨hm, by simp⟩⟩
  · rw [List.nodup_flatten]
    constructor
    · intro ms hms
      obtain ⟨w, rfl⟩ := List.mem_ofFn.1 hms
      exact hnodup.filter _
    · rw [assigned, List.pairwise_ofFn]
      intro w w' hlt m hm hm'
      have hw := of_decide_eq_true (List.mem_filter.1 hm).2
      have hw' := of_decide_eq_true (List.mem_filter.1 hm').2
      exact absurd (hw.symm.trans hw') hlt.ne

theorem mapM_types {plan : ExecPlan} {items : List ScalarRef} {tys : List ColumnType}
    (h : items.mapM (ScalarRef.columnType plan) = some tys) :
    (∀ r ∈ items, r.columnType plan = some (r.type plan)) ∧
      tys = items.map (ScalarRef.type plan) := by
  induction items generalizing tys with
  | nil =>
      cases h
      exact ⟨by simp, rfl⟩
  | cons r items ih =>
      rw [List.mapM_cons] at h
      cases hr : r.columnType plan with
      | none =>
          rw [hr] at h
          cases h
      | some ty =>
          cases hrest : items.mapM (ScalarRef.columnType plan) with
          | none =>
              rw [hr, hrest] at h
              cases h
          | some rest =>
              rw [hr, hrest] at h
              cases h
              obtain ⟨htypes, rfl⟩ := ih hrest
              have htype : r.type plan = ty := by rw [ScalarRef.type, hr, Option.getD_some]
              refine ⟨?_, by rw [List.map_cons, htype]⟩
              rw [List.forall_mem_cons]
              exact ⟨by rw [hr, htype], htypes⟩

/-- What the sink takes: no step above, and items whose columns have types. -/
theorem columnSink_eq {plan : ExecPlan} {sink : ColumnSink} (h : columnSink plan = some sink) :
    plan.post = [] ∧ (∀ r ∈ plan.items, r.columnType plan = some (r.type plan)) ∧
      sink = ColumnSink.new (plan.items.map (ScalarRef.type plan)) := by
  rw [columnSink] at h
  split at h
  · rename_i hplain
    rw [Bool.and_eq_true, List.isEmpty_iff] at hplain
    obtain ⟨tys, htys, rfl⟩ := Option.map_eq_some_iff.1 h
    obtain ⟨htypes, rfl⟩ := mapM_types htys
    exact ⟨hplain.1, htypes, rfl⟩
  · cases h

theorem new_between {plan : ExecPlan} :
    (ColumnSink.new (plan.items.map (ScalarRef.type plan))).Between plan [] where
  holds := by
    refine ⟨?_, rfl, Nat.le_refl _, .nil, .nil⟩
    rw [ColumnSink.new, List.map_map, List.forall₂_map_right_iff, List.forall₂_same]
    exact fun r _ => Fill.new_holds (r.type plan)
  started := rfl

theorem runWorkers {plan : ExecPlan}
    (hty : ∀ r ∈ plan.items, r.columnType plan = some (r.type plan))
    (workers : List (List (ℕ × List ChunkSet))) :
    ∃ partials, (workers.mapM fun ms => ms.foldlM (runMorsel plan)
        (ColumnSink.new (plan.items.map (ScalarRef.type plan)))) = some partials ∧
      List.Forall₂ (fun ms p => p.Between plan ms) workers partials := by
  induction workers with
  | nil => exact ⟨[], rfl, .nil⟩
  | cons ms workers ih =>
      obtain ⟨partials, hruns, hall⟩ := ih
      obtain ⟨p, hrun, hp⟩ := runMorsels_between hty new_between ms
      exact ⟨p :: partials, by rw [List.mapM_cons, hrun, hruns]; rfl, .cons hp hall⟩

theorem lent_cell (repair : Bytes → String) (c : HeldColumn) (rows i : ℕ) :
    Column.cell repair ⟨c.name, c.ty, c.data.lent, c.validity, rows⟩ i = c.cell repair i := by
  rw [Column.cell, HeldColumn.cell, HeldColumn.value]
  cases c.data <;> rfl

theorem rowsOf_cells (repair : Bytes → String) {held : Held} {rows : List (List Value)}
    (hlen : held.rows = rows.length) (hlent : ∀ i row, rows[i]? = some row →
      held.borrow.columns.mapM (fun c => c.cell repair i) = some row) :
    held.rowsOf repair = some rows := by
  have hrow : ∀ i row, rows[i]? = some row →
      held.columns.mapM (fun c => c.cell repair i) = some row := by
    intro i row hi
    have hcells := hlent i row hi
    simp only [Held.borrow, List.mapM_map] at hcells
    rw [← hcells]
    congr 1
    funext c
    exact (lent_cell repair c held.rows i).symm
  obtain ⟨rows', hrows', hall⟩ := mapM_range_holds (R := fun row row' => row = row')
    (g := fun i => held.columns.mapM fun c => c.cell repair i) rows
    fun i row hi => ⟨row, hrow i row hi, rfl⟩
  rw [List.forall₂_eq_eq_eq] at hall
  rw [Held.rowsOf, hlen, hrows', hall]

theorem forall₂_join {α β γ : Type} {R : α → β → Prop} {S : α → γ → Prop} {Q : β → γ → Prop}
    {xs : List α} {ys : List β} {zs : List γ} (h : List.Forall₂ R xs ys)
    (h' : List.Forall₂ S xs zs) (himp : ∀ {x y z}, R x y → S x z → Q y z) :
    List.Forall₂ Q ys zs := by
  induction h generalizing zs with
  | nil =>
      cases h'
      exact .nil
  | cons hxy _ ih =>
      cases h' with
      | cons hxz h' => exact .cons (himp hxy hxz) (ih h')

section

variable {plan : ExecPlan} (repair : Bytes → String)

theorem says_row {es : List (String × ScalarRef)} {ps : List (ChunkSet × ℕ)} {cols : List Column}
    (ty : ScalarRef → ColumnType)
    (h : List.Forall₂ (fun e c => Column.Says repair e.1 (ty e.2) (ps.map (e.2.at' plan)) c) es
      cols) {i : ℕ} {p : ChunkSet × ℕ} (hp : ps[i]? = some p) :
    cols.mapM (fun c => c.cell repair i) = some (es.map fun e => e.2.at' plan p) := by
  induction h with
  | nil => rfl
  | @cons e c es cols hc _ ih =>
      have hcell := hc.cells i (e.2.at' plan p) (by rw [List.getElem?_map, hp]; rfl)
      rw [List.mapM_cons, hcell, ih]
      rfl

theorem finish_says (names : List String) {items : List ScalarRef} {fills : List Fill}
    {ps : List (ChunkSet × ℕ)}
    (htakes : ∀ r ∈ items, ∀ v ∈ ps.map (r.at' plan), (r.type plan).Takes v)
    (h : List.Forall₂ (fun r f => Fill.Holds (r.type plan) (ps.map (r.at' plan)) f) items fills) :
    List.Forall₂ (fun e c => Column.Says repair e.1
      (keptType (e.2.type plan) (ps.map (e.2.at' plan))) (ps.map (e.2.at' plan)) c)
      (names.zip items) (finish names fills ps.length).borrow.columns := by
  rw [finish, Held.borrow]
  induction h generalizing names with
  | nil =>
      rw [List.zip_nil_right, List.zip_nil_right]
      exact .nil
  | @cons r f items fills hf _ ih =>
      cases names with
      | nil => exact .nil
      | cons name names =>
          have hsays := Fill.finish_says repair hf (htakes r List.mem_cons_self) name
          rw [List.length_map] at hsays
          exact .cons hsays (ih names fun r' hr' => htakes r' (List.mem_cons_of_mem r hr'))

/-- The columns a sink keeps are turned into the rows that a sink of rows answers, however the
morsels are shared out. Where there is a row, what is lent is the columns of those rows, cell by
cell and type by type, and of an answer with no row the columns have the types they were
declared with. -/
theorem columnSink_exact {sink : ColumnSink} (haccepts : columnSink plan = some sink)
    (morsels : List (List ChunkSet)) {k : ℕ} (assign : ℕ → Fin (k + 1)) :
    ∃ held, finishColumns plan (assigned morsels assign) = some held ∧
      finishRows plan (assigned morsels assign) = finishRows plan [indexed morsels] ∧
      held.rowsOf repair = some (finishRows plan (assigned morsels assign)) ∧
      (finishRows plan (assigned morsels assign) ≠ [] →
        ∃ cols, columnar plan.columns (finishRows plan (assigned morsels assign)) = .ok cols ∧
          ColumnsAgree repair (finishRows plan (assigned morsels assign)) held.borrow cols) ∧
      (finishRows plan (assigned morsels assign) = [] →
        held.borrow.columns.map Column.ty = sink.fills.map Fill.ty) := by
  obtain ⟨hpost, hty, rfl⟩ := columnSink_eq haccepts
  have hperm := assigned_perm morsels assign
  have hasc := indexed_asc morsels
  have hsome : assigned morsels assign ≠ [] := by simp [assigned]
  have hsorted : ∀ ms ∈ assigned morsels assign, ms.Pairwise fun a b => a.1 < b.1 := by
    intro ms hms
    obtain ⟨w, rfl⟩ := List.mem_ofFn.1 hms
    exact hasc.filter _
  obtain ⟨partials, hruns, hall⟩ := runWorkers hty (assigned morsels assign)
  obtain ⟨fills, hmerge, hfills⟩ := merge_holds plan.columns hall hsome hperm hasc hsorted
  have hrows := finishRows_eq hpost hperm hasc
  have hscan : finishRows plan [indexed morsels] =
      (workerPoints (indexed morsels)).map (rowAt plan) := finishRows_eq hpost (by simp) hasc
  generalize workerPoints (indexed morsels) = ps at hmerge hfills hrows hscan
  have htakes : ∀ r ∈ plan.items, ∀ p ∈ ps, (r.type plan).Takes (r.at' plan p) :=
    fun r hr p _ => scalar_takes (hty r hr) p.1 p.2
  have hsays := finish_says repair plan.columns (fun r hr v hv => by
    obtain ⟨p, hp, rfl⟩ := List.mem_map.1 hv
    exact htakes r hr p hp) hfills
  obtain ⟨cols, hcols, hcrows, hcsays⟩ := columnar_takes (fun r p => r.at' plan p)
    (ScalarRef.type plan) repair plan.named htakes
  have hlen : (finishRows plan (assigned morsels assign)).length = ps.length := by
    rw [hrows, List.length_map]
  have hcells : ∀ i row, (finishRows plan (assigned morsels assign))[i]? = some row →
      (finish plan.columns fills ps.length).borrow.columns.mapM (fun c => c.cell repair i) =
        some row := by
    intro i row hrow
    rw [hrows, List.getElem?_map, Option.map_eq_some_iff] at hrow
    obtain ⟨p, hp, rfl⟩ := hrow
    have hsnd : (plan.columns.zip plan.items).map (fun e => e.2.at' plan p) = rowAt plan p := by
      have hzip := List.map_snd_zip (Nat.le_of_eq plan.named.symm)
      rw [rowAt, ← congrArg (List.map fun r : ScalarRef => r.at' plan p) hzip, List.map_map]
      rfl
    rw [← hsnd]
    exact says_row repair (fun r => keptType (r.type plan) (ps.map (r.at' plan))) hsays hp
  refine ⟨finish plan.columns fills ps.length, ?_, hrows.trans hscan.symm,
    rowsOf_cells repair hlen.symm hcells, fun hne => ⟨cols, ?_, hlen.symm, hcrows.trans hlen.symm,
      ?_, hcells⟩, fun hnone => ?_⟩
  · rw [finishColumns, haccepts]
    simp only [Option.bind_eq_bind, Option.bind_some, hruns, hmerge]
  · rw [hrows]
    exact hcols
  · have hps : ps ≠ [] := by
      rintro rfl
      exact hne hrows
    refine forall₂_join hsays hcsays fun {e c d} hc hd => ⟨hc.name.trans hd.name.symm, ?_,
      hc.len.trans hd.len.symm, fun i hi => ?_⟩
    · have hmap : ps.map (e.2.at' plan) ≠ [] := fun hnil => hps (List.map_eq_nil_iff.1 hnil)
      rw [hc.ty, hd.ty, keptType, if_neg hmap]
    · have hi' : i < (ps.map (e.2.at' plan)).length := by rwa [List.length_map, ← hlen]
      have hget := List.getElem?_eq_getElem hi'
      rw [hc.cells i _ hget, hd.cells i _ hget]
  · have hps : ps = [] := List.map_eq_nil_iff.1 (hrows.symm.trans hnone)
    subst hps
    have htypes : ∀ {es : List (String × ScalarRef)} {cs : List Column},
        List.Forall₂ (fun e c => Column.Says repair e.1
          (keptType (e.2.type plan) (([] : List (ChunkSet × ℕ)).map (e.2.at' plan)))
          (([] : List (ChunkSet × ℕ)).map (e.2.at' plan)) c) es cs →
        cs.map Column.ty = (es.map Prod.snd).map (ScalarRef.type plan) := by
      intro es cs h
      induction h with
      | nil => rfl
      | cons hc _ ih =>
          rw [List.map_cons, ih, hc.ty]
          rfl
    rw [htypes hsays, List.map_snd_zip (Nat.le_of_eq plan.named.symm), ColumnSink.new,
      List.map_map]
    exact (List.map_id'' (fun _ => rfl) _).symm

def offsetPlan : ExecPlan := ⟨["n"], [.rowId 0], rfl, fun _ => 0, fun _ => .null, []⟩

/-- One morsel with a row, which the second of two workers runs. -/
theorem columnSink_exact_one : ∃ held,
    finishColumns offsetPlan (assigned [[⟨fun _ => ⟨fun _ _ => some ⟨7, ""⟩, 0⟩, 0, [0]⟩]]
      fun _ => (1 : Fin 2)) = some held ∧
    held.rowsOf (fun _ => "") = some [[.num (.int 7 (by decide))]] := by
  obtain ⟨held, hheld, hscan, hrows, _⟩ := @columnSink_exact offsetPlan (fun _ => "") _ rfl
    [[⟨fun _ => ⟨fun _ _ => some ⟨7, ""⟩, 0⟩, 0, [0]⟩]] 1 fun _ => (1 : Fin 2)
  refine ⟨held, hheld, ?_⟩
  rw [hrows, hscan, finishRows_eq rfl (List.Perm.of_eq (List.append_nil _)) (indexed_asc _)]
  rfl

/-- An answer with no row keeps the type of an integer, and no rows make a column of nulls. -/
theorem emptyAnswer_types : ¬ ∀ (plan : ExecPlan) (sink : ColumnSink),
    columnSink plan = some sink → ∀ (morsels : List (List ChunkSet)) (k : ℕ)
      (assign : ℕ → Fin (k + 1)) (held : Held) (cols : Columns),
    finishColumns plan (assigned morsels assign) = some held →
    columnar plan.columns (finishRows plan (assigned morsels assign)) = .ok cols →
    held.borrow.columns.map Column.ty = cols.columns.map Column.ty := by
  intro h
  have hrows : finishRows offsetPlan (assigned (k := 0) [] fun _ => 0) = [] :=
    finishRows_eq rfl (assigned_perm [] _) (indexed_asc [])
  have hcols : columnar offsetPlan.columns (finishRows offsetPlan (assigned (k := 0) [] fun _ => 0)) =
      .ok ⟨[⟨"n", .null, .null, none, 0⟩], 0⟩ := by
    rw [hrows]
    rfl
  have htypes := h offsetPlan _ rfl [] 0 (fun _ => 0) _ _ rfl hcols
  cases htypes

end

end Zu.Exec
