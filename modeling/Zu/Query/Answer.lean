import Zu.Query.Buffered

/-!
# What a statement answers, and what a query inside it does

A statement answers the same rows streamed and executed. A query written inside an
expression stands for one value: whether it answered a row, or the value in its one
row. The first is asked through the handoff of a streamed statement, which only the
last stage of a plan that is not a conjunction ever uses.
-/

namespace Zu.Query

open Lib

variable {σ γ X V : Type}

/-! ### Statements -/

/-- Streaming a statement hands over the rows executing it returns: in order, in
batches that are not empty and not larger than the size asked for, with zero taken as
one; to a sink that has not said stop before; and all of them when it never does. -/
theorem executeStreaming_eq_execute [Values V] (sink : Sink V) (batch : ℕ)
    {plan : Plan σ γ X V} (hscan : plan.InScanOrder) {fuel : ℕ} {params : List V}
    {rows : List (List V)} (h : execute fuel params plan = .ok rows) :
    ∃ n, ∀ m, n ≤ m →
      let out := (executeStreaming sink m params plan).exec (Streaming.new batch)
      Sized (max batch 1) out.2.handed ∧ Asked sink out.2.handed ∧
        out.2.handed.flatten <+: rows ∧
        ((∀ hs b, ∃ flow, sink hs b = .ok flow) → out.1 = .ok ()) ∧
        ((∀ hs b, sink hs b = .ok .more) → out.1 = .ok () ∧ out.2.handed.flatten = rows) := by
  obtain ⟨n, hn⟩ := executeStreaming_triple sink
    (lt_of_lt_of_le Nat.zero_lt_one (le_max_right batch 1)) hscan h
  refine ⟨n, fun m hm => ?_⟩
  obtain ⟨hok, herr⟩ := hn m hm (Streaming.new batch) (fresh_new batch)
  cases hrun : (executeStreaming sink m params plan).exec (Streaming.new batch) with
  | mk r st =>
      cases r with
      | ok a =>
          have hfin := hok a st hrun
          exact ⟨hfin.sized, hfin.asked, hfin.part, fun _ => rfl, fun hmore =>
            ⟨rfl, hfin.whole fun hs b rest _ => hmore hs b⟩⟩
      | error e =>
          have hcut := herr e st hrun
          obtain ⟨hs, b, e', hraised⟩ := hcut.raised
          refine ⟨hcut.sized, hcut.asked, hcut.part, fun hflow => ?_, fun hmore => ?_⟩
          · obtain ⟨flow, hflow⟩ := hflow hs b
            rw [hraised] at hflow
            cases hflow
          · rw [hmore hs b] at hraised
            cases hraised

/-- A plan of one stage over the rows of two morsels, under a SKIP of one. -/
def skipOne (sink : SinkDef Literal) :
    Plan (List (List Literal)) Unit Literal Literal :=
  .stages fun _ => .ok [overRows 2 sink evalLiteral
    [[[.int 0]], [[.int 1], [.int 2]]].flatten [[[.int 0]], [[.int 1], [.int 2]]]]

theorem skipOne_inScanOrder (sink : SinkDef Literal) : (skipOne sink).InScanOrder := by
  intro params ready hready stage hstage
  cases hready
  rw [List.mem_singleton.1 hstage]
  exact overRows_inScanOrder Nat.zero_lt_two _ _ _

theorem executeStreaming_eq_execute_skipOne :
    ∃ n, ∀ m, n ≤ m →
      ((executeStreaming (fun _ _ => .ok .more) m []
        (skipOne { projection := { skip := some (.int 1) } })).exec
          (Streaming.new 1)).2.handed.flatten = [[.int 1], [.int 2]] := by
  obtain ⟨n, hn⟩ := executeStreaming_eq_execute (fun _ _ => .ok .more) 1
    (skipOne_inScanOrder { projection := { skip := some (.int 1) } })
    (show execute 4 [] _ = .ok [[.int 1], [.int 2]] from rfl)
  exact ⟨n, fun m hm => ((hn m hm).2.2.2.2 fun _ _ => rfl).2⟩

def oneRow : Plan (List (List Literal)) Unit Literal Literal :=
  .stages fun _ => .ok [overRows 1 {} evalLiteral [[.int 0]] [[[.int 0]]]]

theorem oneRow_inScanOrder : oneRow.InScanOrder := by
  intro params ready hready stage hstage
  cases hready
  rw [List.mem_singleton.1 hstage]
  exact overRows_inScanOrder Nat.zero_lt_one _ _ _

theorem handed_oneRow (fuel : ℕ) :
    ((executeStreaming (fun _ _ => .ok .more) (fuel + 2) [] oneRow).exec
      (Streaming.new 0)).2.handed = [[[.int 0]]] := rfl

/-- A size of zero is not kept: the batches hold a row. -/
theorem not_executeStreaming_sized :
    ¬ ∀ (sink : Sink Literal) (batch : ℕ)
      (plan : Plan (List (List Literal)) Unit Literal Literal) (fuel : ℕ)
      (rows : List (List Literal)), plan.InScanOrder → execute fuel [] plan = .ok rows →
        ∃ n, ∀ m, n ≤ m → Sized batch
          ((executeStreaming sink m [] plan).exec (Streaming.new batch)).2.handed := by
  intro h
  obtain ⟨n, hn⟩ := h (fun _ _ => .ok .more) 0 oneRow 2 [[.int 0]] oneRow_inScanOrder rfl
  have hsized := hn (n + 2) (Nat.le_add_right _ _)
  rw [handed_oneRow] at hsized
  exact absurd (hsized _ List.mem_cons_self).2 (by decide)

/-! ### Queries inside expressions -/

/-- `Capture`: a slot of the row around a query, and the parameter it is read at. -/
structure Capture where
  slot : ℕ
  param : ℕ

/-- `BoundQuery`, of a query written inside an expression: `existence` is its
`exists`. -/
structure BoundQuery (σ γ X V : Type) where
  plan : Plan σ γ X V
  existence : Bool
  captures : List Capture := []

section

variable [Values V]

/-- The sink that has seen enough. -/
def stopAtOnce : Sink V := fun _ _ => .ok .stop

def anyRow (fuel : ℕ) (plan : Plan σ γ X V) (params : List V) : Except QueryError V :=
  let (r, st) := (plan.runStreamed stopAtOnce fuel params).exec (Streaming.new 1)
  match r with
  | .error e => .error e
  | .ok _ => .ok (Values.bool (st.handed.any fun batch => !batch.isEmpty))

def valueIn (rows : List (List V)) : Except QueryError V :=
  match rows with
  | [] => .ok Values.null
  | [row] => .ok (row.head?.getD Values.null)
  | rows => .error (.gql "22000"
      s!"a VALUE query stands for one value, and this one answered {rows.length} rows: cut it down with LIMIT 1 or aggregate it")

def oneValue (fuel : ℕ) (plan : Plan σ γ X V) (params : List V) : Except QueryError V := do
  let rows ← plan.run fuel params
  valueIn rows

def answer (fuel : ℕ) (query : BoundQuery σ γ X V) (params : List V) : Except QueryError V :=
  if query.existence then anyRow fuel query.plan params else oneValue fuel query.plan params

/-- `Scalars`, of the queries a statement holds: what each that reads nothing from the
rows around it answered. -/
structure Scalars (σ γ X V : Type) where
  once : List V
  queries : List (BoundQuery σ γ X V)

/-- What one query answers before the first row: a null when it reads the rows. -/
def beforeRows (fuel : ℕ) (params : List V) (query : BoundQuery σ γ X V) :
    Except QueryError V :=
  if query.captures.isEmpty then answer fuel query params else .ok Values.null

/-- `Scalars::prepare`: what each query answers before the first row. -/
def answerOnce (fuel : ℕ) (params : List V) :
    List (BoundQuery σ γ X V) → Except QueryError (List V)
  | [] => .ok []
  | query :: queries => do
      let v ← beforeRows fuel params query
      let vs ← answerOnce fuel params queries
      return v :: vs

/-- Writes the values a query captured into its parameters. -/
def fillCaptures (valueOf : ℕ → Except QueryError V) :
    List Capture → List V → Except QueryError (List V)
  | [], params => .ok params
  | capture :: captures, params => do
      let v ← valueOf capture.slot
      fillCaptures valueOf captures (params.set capture.param v)

/-- `scalar_value`, on the row whose slots `valueOf` reads. -/
def scalarValue (fuel : ℕ) (scalars : Scalars σ γ X V) (params : List V)
    (valueOf : ℕ → Except QueryError V) (ix : Fin scalars.queries.length) :
    Except QueryError V :=
  let query := scalars.queries.get ix
  if query.captures.isEmpty then .ok ((scalars.once[ix.val]?).getD Values.null)
  else do
    let filled ← fillCaptures valueOf query.captures params
    answer fuel query filled

/-- What a query stands for, given its rows. -/
def BoundQuery.meaning (query : BoundQuery σ γ X V) (rows : List (List V)) :
    Except QueryError V :=
  if query.existence then .ok (Values.bool (!rows.isEmpty)) else valueIn rows

theorem anyRow_streams {plan : Plan σ γ X V} {params : List V}
    (hs : plan.streams params = true) (hscan : plan.InScanOrder) {fuel : ℕ}
    {rows : List (List V)} (h : plan.run fuel params = .ok rows) :
    ∃ n, ∀ m, n ≤ m → anyRow m plan params = .ok (Values.bool (!rows.isEmpty)) := by
  obtain ⟨n, hn⟩ := Plan.runStreamed_streamed stopAtOnce Nat.zero_lt_one hs hscan h
  refine ⟨n, fun m hm => ?_⟩
  obtain ⟨hok, herr⟩ := hn m hm (Streaming.new 1) (fresh_new 1)
  cases hrun : (plan.runStreamed stopAtOnce m params).exec (Streaming.new 1) with
  | mk r st =>
      cases r with
      | error e =>
          obtain ⟨hs, b, e', hraised⟩ := (herr e st hrun).raised
          cases hraised
      | ok a =>
          have hfin := (hok a st hrun).2
          rw [anyRow, hrun]
          change Except.ok (Values.bool (st.handed.any fun batch => !batch.isEmpty)) = _
          congr 2
          cases hh : st.handed with
          | nil =>
              have hnil := hfin.whole (by rw [hh]; exact Answered.nil)
              rw [hh] at hnil
              rw [← hnil]
              rfl
          | cons b rest =>
              have hb := (hfin.sized b (by rw [hh]; exact List.mem_cons_self)).1
              have hrows : rows ≠ [] := by
                rintro rfl
                have hflat := List.prefix_nil.1 hfin.part
                rw [hh, List.flatten_cons] at hflat
                exact hb (List.append_eq_nil_iff.1 hflat).1
              have hb' : b.isEmpty = false := by cases b <;> [exact absurd rfl hb; rfl]
              have hrows' : rows.isEmpty = false := by
                cases rows <;> [exact absurd rfl hrows; rfl]
              rw [List.any_cons, hb', hrows']
              rfl

/-- A query whose rows come back whole is never seen to have one. -/
theorem anyRow_whole {plan : Plan σ γ X V} {params : List V}
    (hs : plan.streams params = false) {fuel : ℕ} {rows : List (List V)}
    (h : plan.run fuel params = .ok rows) {m : ℕ} (hm : fuel ≤ m) :
    anyRow m plan params = .ok (Values.bool false) := by
  rw [anyRow, Plan.runStreamed_whole _ hs h hm]
  rfl

/-- A query inside an expression means what it says, given the parameters, exactly
when it is not an `EXISTS`, or its rows are handed over as they are made, or it has
none. -/
theorem answer_eq_meaning_iff {query : BoundQuery σ γ X V} (hscan : query.plan.InScanOrder)
    {fuel : ℕ} {params : List V} {rows : List (List V)}
    (h : execute fuel params query.plan = .ok rows) :
    ∃ n, ∀ m, n ≤ m → (answer m query params = query.meaning rows ↔
      (query.existence = true → query.plan.streams params = true ∨ rows = [])) := by
  cases hex : query.existence with
  | false =>
      refine ⟨fuel, fun m hm => iff_of_true ?_ fun hno => by cases hno⟩
      rw [answer, BoundQuery.meaning, hex, oneValue, Plan.run_mono hm h]
      rfl
  | true =>
      cases hs : query.plan.streams params with
      | true =>
          obtain ⟨n, hn⟩ := anyRow_streams hs hscan h
          refine ⟨n, fun m hm => iff_of_true ?_ fun _ => Or.inl rfl⟩
          rw [answer, BoundQuery.meaning, hex]
          exact hn m hm
      | false =>
          refine ⟨fuel, fun m hm => ?_⟩
          have hwhole := anyRow_whole hs h hm
          rw [answer, BoundQuery.meaning, hex, if_pos rfl, if_pos rfl, hwhole]
          constructor
          · intro heq _
            have hb := Values.bool_inj _ _ (Except.ok.inj heq)
            exact Or.inr (by simpa using hb)
          · intro hcond
            rw [(hcond rfl).resolve_left (by simp)]
            rfl

/-- The value a query of a statement has on a row: the statement answers once those
that read nothing from its rows, and then runs the others on each. -/
def nestedValue (fuel : ℕ) (queries : List (BoundQuery σ γ X V)) (params : List V)
    (valueOf : ℕ → Except QueryError V) (ix : Fin queries.length) : Except QueryError V :=
  match answerOnce fuel params queries with
  | .error e => .error e
  | .ok once => scalarValue fuel { once, queries } params valueOf ix

variable {fuel : ℕ} {params : List V}

/-- A query that reads nothing from the rows answers. -/
def Answers (fuel : ℕ) (params : List V) (query : BoundQuery σ γ X V) : Prop :=
  query.captures = [] → ∃ v, answer fuel query params = .ok v

theorem beforeRows_ok {query : BoundQuery σ γ X V} (h : Answers fuel params query) :
    ∃ v, beforeRows fuel params query = .ok v ∧
      (query.captures = [] → answer fuel query params = .ok v) := by
  by_cases hc : query.captures = []
  · obtain ⟨v, hv⟩ := h hc
    exact ⟨v, by rw [beforeRows, hc]; exact hv, fun _ => hv⟩
  · exact ⟨Values.null, if_neg fun hempty => hc (List.isEmpty_iff.1 hempty),
      fun hno => absurd hno hc⟩

theorem answerOnce_ok {queries : List (BoundQuery σ γ X V)}
    (h : ∀ query ∈ queries, Answers fuel params query) :
    ∃ once, answerOnce fuel params queries = .ok once ∧ ∀ ix : Fin queries.length,
      (queries.get ix).captures = [] →
        answer fuel (queries.get ix) params = .ok ((once[ix.val]?).getD Values.null) := by
  induction queries with
  | nil => exact ⟨[], rfl, fun ix => ix.elim0⟩
  | cons query queries ih =>
      obtain ⟨once, honce, hread⟩ := ih fun q hq => h q (List.mem_cons_of_mem _ hq)
      obtain ⟨v, hv, hanswer⟩ := beforeRows_ok (h query List.mem_cons_self)
      refine ⟨v :: once, ?_, fun ix => ?_⟩
      · rw [answerOnce, hv, ok_bind, honce, ok_bind]
        rfl
      · cases ix using Fin.cases with
        | zero => exact hanswer
        | succ ix => exact hread ix

theorem answerOnce_error {queries : List (BoundQuery σ γ X V)} (ix : Fin queries.length)
    (hc : (queries.get ix).captures = []) {e : QueryError}
    (he : answer fuel (queries.get ix) params = .error e)
    (h : ∀ j, j ≠ ix → Answers fuel params (queries.get j)) :
    answerOnce fuel params queries = .error e := by
  induction queries with
  | nil => exact ix.elim0
  | cons query queries ih =>
      cases ix using Fin.cases with
      | zero =>
          have hempty : query.captures.isEmpty = true := List.isEmpty_iff.2 hc
          have he : answer fuel query params = .error e := he
          rw [answerOnce, beforeRows, if_pos hempty, he]
          rfl
      | succ ix =>
          obtain ⟨v, hv, -⟩ := beforeRows_ok (h ⟨0, Nat.succ_pos _⟩ (Fin.succ_ne_zero ix).symm)
          have hv : beforeRows fuel params query = .ok v := hv
          have hrest := ih ix hc he fun j hj =>
            h j.succ fun heq => hj (Fin.succ_inj.1 heq)
          rw [answerOnce, hv, ok_bind, hrest]
          rfl

/-- A query is answered with the parameters the row fills in, whether that is before
the first row or on each of them. -/
theorem nestedValue_eq_answer {queries : List (BoundQuery σ γ X V)}
    (ix : Fin queries.length) (h : ∀ j, j ≠ ix → Answers fuel params (queries.get j))
    {valueOf : ℕ → Except QueryError V} {filled : List V}
    (hfill : fillCaptures valueOf (queries.get ix).captures params = .ok filled) :
    nestedValue fuel queries params valueOf ix = answer fuel (queries.get ix) filled := by
  have hothers : Answers fuel params (queries.get ix) →
      ∀ query ∈ queries, Answers fuel params query := by
    intro hix query hquery
    obtain ⟨j, rfl⟩ := List.get_of_mem hquery
    by_cases hj : j = ix
    · exact hj ▸ hix
    · exact h j hj
  by_cases hc : (queries.get ix).captures = []
  · have hsame : filled = params := by
      rw [hc] at hfill
      exact (Except.ok.inj hfill).symm
    rw [hsame]
    cases hans : answer fuel (queries.get ix) params with
    | error e =>
        rw [nestedValue, answerOnce_error ix hc hans h]
    | ok v =>
        obtain ⟨once, honce, hread⟩ := answerOnce_ok (hothers fun _ => ⟨v, hans⟩)
        have hempty : (queries.get ix).captures.isEmpty = true := List.isEmpty_iff.2 hc
        rw [nestedValue, honce]
        change scalarValue fuel { once, queries } params valueOf ix = _
        rw [scalarValue, if_pos hempty, ← hans, hread ix hc]
  · obtain ⟨once, honce, -⟩ := answerOnce_ok (hothers fun hno => absurd hno hc)
    have hsome : ¬ (queries.get ix).captures.isEmpty = true := fun hempty =>
      hc (List.isEmpty_iff.1 hempty)
    rw [nestedValue, honce]
    change scalarValue fuel { once, queries } params valueOf ix = _
    rw [scalarValue, if_neg hsome, hfill]
    rfl

/-- A query written inside an expression means on a row what it says exactly when it
is not an `EXISTS`, or its rows are handed over as they are made, or it has none. -/
theorem nestedValue_eq_meaning_iff {queries : List (BoundQuery σ γ X V)}
    (ix : Fin queries.length) (hscan : (queries.get ix).plan.InScanOrder)
    {valueOf : ℕ → Except QueryError V} {filled : List V}
    (hfill : fillCaptures valueOf (queries.get ix).captures params = .ok filled)
    {rows : List (List V)} (h : execute fuel filled (queries.get ix).plan = .ok rows) :
    ∃ n, ∀ m, n ≤ m → (∀ j, j ≠ ix → Answers m params (queries.get j)) →
      (nestedValue m queries params valueOf ix = (queries.get ix).meaning rows ↔
        ((queries.get ix).existence = true →
          (queries.get ix).plan.streams filled = true ∨ rows = [])) := by
  obtain ⟨n, hn⟩ := answer_eq_meaning_iff hscan h
  refine ⟨n, fun m hm hothers => ?_⟩
  rw [nestedValue_eq_answer ix hothers hfill]
  exact hn m hm

end

/-- `EXISTS` around a query that reads slot 3 of the row and skips one of three rows. -/
def existsSkipOne (distinct : Bool) : BoundQuery (List (List Literal)) Unit Literal Literal where
  plan := skipOne { projection := { distinct, skip := some (.int 1) } }
  existence := true
  captures := [{ slot := 3, param := 0 }]

theorem nestedValue_eq_meaning_iff_existsSkipOne :
    ∃ n, ∀ m, n ≤ m →
      (nestedValue m [existsSkipOne true] [.null] (fun _ => .ok (.int 7)) 0 =
        (existsSkipOne true).meaning [[.int 1], [.int 2]] ↔
          ((existsSkipOne true).existence = true →
            (existsSkipOne true).plan.streams [.int 7] = true ∨
              ([[.int 1], [.int 2]] : List (List Literal)) = [])) := by
  have hfill : fillCaptures (fun _ => Except.ok (Literal.int 7)) (existsSkipOne true).captures
      [.null] = .ok [.int 7] := rfl
  have hrows : execute 4 [.int 7] (existsSkipOne true).plan = .ok [[.int 1], [.int 2]] := rfl
  obtain ⟨n, hn⟩ := nestedValue_eq_meaning_iff (0 : Fin [existsSkipOne true].length)
    (skipOne_inScanOrder _) hfill hrows
  exact ⟨n, fun m hm => hn m hm fun j hj => absurd (Fin.ext (Nat.lt_one_iff.1 j.isLt)) hj⟩

/-- `EXISTS` around a query that drops duplicates answers false over two rows. -/
theorem not_nestedValue_eq_meaning :
    ¬ ∀ (queries : List (BoundQuery (List (List Literal)) Unit Literal Literal))
      (ix : Fin queries.length) (params filled : List Literal)
      (valueOf : ℕ → Except QueryError Literal) (fuel : ℕ) (rows : List (List Literal)),
      (queries.get ix).plan.InScanOrder →
      fillCaptures valueOf (queries.get ix).captures params = .ok filled →
      execute fuel filled (queries.get ix).plan = .ok rows →
      ∃ n, ∀ m, n ≤ m → (∀ j, j ≠ ix → Answers m params (queries.get j)) →
        nestedValue m queries params valueOf ix = (queries.get ix).meaning rows := by
  intro h
  obtain ⟨n, hn⟩ := h [existsSkipOne true] 0 [.null] [.int 7] (fun _ => .ok (.int 7)) 4
    [[.int 1], [.int 2]] (skipOne_inScanOrder _) rfl rfl
  have hwrong := hn (n + 4) (Nat.le_add_right _ _) fun j hj => absurd (Fin.ext (Nat.lt_one_iff.1 j.isLt)) hj
  have hfalse : nestedValue (n + 4) [existsSkipOne true] [.null] (fun _ => .ok (.int 7)) 0 =
      .ok (.bool false) := rfl
  rw [hfalse] at hwrong
  cases hwrong

end Zu.Query
