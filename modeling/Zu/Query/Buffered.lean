import Zu.Query.Handoff

/-!
# Streaming equals buffering

A statement whose rows are streamed hands over what `execute` returns, whether its
last stage hands its rows over as it makes them or the rows arrive whole. The workers
of a stage that is split are taken at their word: `InScanOrder` says that their
morsels, one after another, are the scan.
-/

namespace Zu

namespace Query

open Lib

variable {σ γ X V : Type}

/-! ### More fuel changes nothing -/

theorem runFrom_ok {α : Type} {x : Fallible QueryError σ α} {s : σ} {a : α}
    (h : runFrom x s = .ok a) : ∃ s', x.exec s = (.ok a, s') :=
  ⟨(x.exec s).2, Prod.ext h rfl⟩

theorem bind_ok {ε α β : Type} {x : Except ε α} {f : α → Except ε β} {b : β}
    (h : (x >>= f) = .ok b) : ∃ a, x = .ok a ∧ f a = .ok b := by
  cases x with
  | error e => cases h
  | ok a => exact ⟨a, rfl, h⟩

theorem exec_bind_of {α β : Type} {x : Fallible QueryError σ α}
    {f : α → Fallible QueryError σ β} {s t : σ} {a : α} (hx : x.exec s = (.ok a, t)) :
    (x >>= f).exec s = (f a).exec t := by
  rw [exec_bind, hx]

theorem drain_mono {p : Pull σ γ V} {fuel fuel' : ℕ} (hle : fuel ≤ fuel') {s s' : σ}
    {rows : List (Row V)} (h : (drain p fuel).exec s = (.ok rows, s')) :
    (drain p fuel').exec s = (.ok rows, s') := by
  induction fuel generalizing fuel' s rows with
  | zero => cases h
  | succ fuel ih =>
      obtain ⟨fuel', rfl⟩ := Nat.exists_eq_succ_of_ne_zero (Nat.ne_of_gt (Nat.zero_lt_of_lt hle))
      obtain ⟨more, s₁, hnext, h⟩ := exec_bind_ok h
      rw [drain, exec_bind_of hnext]
      cases more with
      | false => exact h
      | true =>
          obtain ⟨chunk, s₂, hemit, h⟩ := exec_bind_ok h
          obtain ⟨rest, s₃, hrest, h⟩ := exec_bind_ok h
          cases h
          rw [if_pos rfl, exec_bind_of hemit,
            exec_bind_of (ih (Nat.le_of_succ_le_succ hle) hrest)]
          rfl

theorem drainGroups_mono {p : Pull σ γ V} {fuel fuel' : ℕ} (hle : fuel ≤ fuel') {s s' : σ}
    {groups out : γ} (h : (drainGroups p fuel groups).exec s = (.ok out, s')) :
    (drainGroups p fuel' groups).exec s = (.ok out, s') := by
  induction fuel generalizing fuel' s groups with
  | zero => cases h
  | succ fuel ih =>
      obtain ⟨fuel', rfl⟩ := Nat.exists_eq_succ_of_ne_zero (Nat.ne_of_gt (Nat.zero_lt_of_lt hle))
      obtain ⟨more, s₁, hnext, h⟩ := exec_bind_ok h
      rw [drainGroups, exec_bind_of hnext]
      cases more with
      | false => exact h
      | true =>
          obtain ⟨next, s₂, hupdate, h⟩ := exec_bind_ok h
          rw [if_pos rfl, exec_bind_of hupdate]
          exact ih (Nat.le_of_succ_le_succ hle) h

variable {fuel fuel' : ℕ}

theorem collect_mono {stage : Stage σ γ X V} (hle : fuel ≤ fuel') {s s' : σ}
    {rows : List (Row V)} (h : (collect stage fuel).exec s = (.ok rows, s')) :
    (collect stage fuel').exec s = (.ok rows, s') := by
  unfold collect at h ⊢
  split at h
  · rename_i hagg
    obtain ⟨groups, s₁, hgroups, h⟩ := exec_bind_ok h
    rw [if_pos hagg, exec_bind_of (drainGroups_mono hle hgroups)]
    exact h
  · rename_i hagg
    rw [if_neg hagg]
    exact drain_mono hle h

theorem runStage_mono [Values V] {stage : Stage σ γ X V} (hle : fuel ≤ fuel') {input out : List (List V)}
    (h : runStage stage fuel input = .ok out) : runStage stage fuel' input = .ok out := by
  obtain ⟨rows, hrows, h⟩ := bind_ok h
  obtain ⟨s', hrows⟩ := runFrom_ok hrows
  rw [runStage, runFrom, collect_mono hle hrows, ok_bind]
  exact h

theorem drainMorsels_mono {stage : Stage σ γ X V} (hle : fuel ≤ fuel') {ss : List σ}
    {rows : List (Row V)} (h : drainMorsels stage fuel ss = .ok rows) :
    drainMorsels stage fuel' ss = .ok rows := by
  induction ss generalizing rows with
  | nil => exact h
  | cons s ss ih =>
      obtain ⟨part, hpart, h⟩ := bind_ok h
      obtain ⟨rest, hrest, h⟩ := bind_ok h
      obtain ⟨s', hpart⟩ := runFrom_ok hpart
      rw [drainMorsels, runFrom, drain_mono hle hpart, ok_bind, ih hrest, ok_bind]
      exact h

theorem mergeMorsels_mono {stage : Stage σ γ X V} (hle : fuel ≤ fuel') {ss : List σ}
    {groups out : γ} (h : mergeMorsels stage fuel groups ss = .ok out) :
    mergeMorsels stage fuel' groups ss = .ok out := by
  induction ss generalizing groups with
  | nil => exact h
  | cons s ss ih =>
      obtain ⟨part, hpart, h⟩ := bind_ok h
      obtain ⟨next, hnext, h⟩ := bind_ok h
      obtain ⟨s', hpart⟩ := runFrom_ok hpart
      rw [mergeMorsels, runFrom, drainGroups_mono hle hpart, ok_bind, hnext, ok_bind]
      exact ih h

theorem collectParallel_mono {stage : Stage σ γ X V} (hle : fuel ≤ fuel')
    {input : List (List V)} {rows : List (Row V)}
    (h : collectParallel stage fuel input = .ok rows) :
    collectParallel stage fuel' input = .ok rows := by
  unfold collectParallel at h ⊢
  split at h
  · rename_i hagg
    obtain ⟨groups, hgroups, h⟩ := bind_ok h
    rw [if_pos hagg, mergeMorsels_mono hle hgroups, ok_bind]
    exact h
  · rename_i hagg
    rw [if_neg hagg]
    exact drainMorsels_mono hle h

theorem runBuffered_mono [Values V] {stage : Stage σ γ X V} (hle : fuel ≤ fuel')
    {input out : List (List V)} (h : runBuffered stage fuel input = .ok out) :
    runBuffered stage fuel' input = .ok out := by
  unfold runBuffered at h ⊢
  split at h
  · rename_i hwhole
    rw [if_pos hwhole]
    exact runStage_mono hle h
  · rename_i hsplit
    rw [if_neg hsplit]
    obtain ⟨rows, hrows, h⟩ := bind_ok h
    rw [runStageParallel, collectParallel_mono hle hrows, ok_bind]
    exact h

/-! ### The operators a streamable sink has -/

theorem streamableFrom_filters {fs : List X} {ops : List (PostOp X)} :
    streamableFrom false (fs.map .filter ++ ops) = streamableFrom false ops := by
  induction fs with
  | nil => rfl
  | cons f fs ih => exact ih

theorem streamableFrom_windowed {fs : List X}
    (h : streamableFrom true (fs.map .filter : List (PostOp X)) = true) : fs = [] := by
  cases fs with
  | nil => rfl
  | cons f fs => cases h

/-- Filters, then a window: what is left when nothing sorts, groups or drops
duplicates. -/
theorem SinkDef.streamable_post {sink : SinkDef X} (h : sink.streamable = true) :
    sink.aggregate = false ∧ ∃ fs : List X, ∃ skip limit : Option X,
      sink.post = fs.map .filter ++ skip.toList.map .skip ++ limit.toList.map .limit := by
  obtain ⟨agg, ⟨distinct, filter, orderBy, skip, limit⟩, filters⟩ := sink
  obtain ⟨hagg, hpost⟩ := Bool.and_eq_true_iff.1 h
  refine ⟨by simpa using hagg, ?_⟩
  simp only [SinkDef.post, Projection.post] at hpost ⊢
  cases distinct with
  | true => cases hpost
  | false =>
      simp only [Bool.false_eq_true, if_false, List.nil_append, List.append_assoc] at hpost ⊢
      rw [streamableFrom_filters] at hpost
      cases orderBy with
      | cons key keys => cases hpost
      | nil =>
          simp only [List.isEmpty_nil, if_true, List.nil_append] at hpost ⊢
          cases skip with
          | none =>
              cases limit with
              | none => exact ⟨filter.toList ++ filters, none, none, by simp⟩
              | some limit =>
                  have hnil := streamableFrom_windowed hpost
                  subst hnil
                  exact ⟨filter.toList, none, some limit, by simp⟩
          | some skip =>
              have hnil : filters = [] := by
                cases limit with
                | none => exact streamableFrom_windowed hpost
                | some limit => exact streamableFrom_windowed hpost
              subst hnil
              exact ⟨filter.toList, some skip, limit, by simp⟩

section

variable [Values V] {eval : Eval X V}

theorem applyPost_append {as bs : List (PostOp X)} {rows : List (Row V)} :
    applyPost eval (as ++ bs) rows = (applyPost eval as rows >>= applyPost eval bs) := by
  induction as generalizing rows with
  | nil => rfl
  | cons op ops ih =>
      simp only [List.cons_append, applyPost]
      cases applyOp eval rows op with
      | error e => rfl
      | ok rows => exact ih

theorem batchRows_filters {fs : List X} {skip limit : Option X} {rows : List (Row V)} :
    batchRows eval (fs.map .filter ++ skip.toList.map .skip ++ limit.toList.map .limit) rows =
      applyPost eval (fs.map .filter) rows := by
  induction fs generalizing rows with
  | nil => cases skip <;> cases limit <;> rfl
  | cons f fs ih =>
      simp only [List.map_cons, List.cons_append, batchRows, applyPost, applyOp]
      cases keepRows eval f rows with
      | error e => rfl
      | ok rows => exact ih

theorem windowCounts_filters {fs : List X} {ops : List (PostOp X)} {w : ℕ × Option ℕ} :
    windowCounts eval (fs.map .filter ++ ops) w = windowCounts eval ops w := by
  induction fs with
  | nil => rfl
  | cons f fs ih => exact ih

/-- What a streamable sink makes of all its rows at once: they pass the filters, and
the window is cut out of those that do. -/
theorem applyPost_streamable {sink : SinkDef X} (h : sink.streamable = true)
    {rows out : List (Row V)} (hout : applyPost eval sink.post rows = .ok out) :
    ∃ kept skip limit, batchRows eval sink.post rows = .ok kept ∧
      windowCounts eval sink.post (0, none) = .ok (skip, limit) ∧
      out = window skip limit kept := by
  obtain ⟨-, fs, skip, limit, hpost⟩ := sink.streamable_post h
  rw [hpost, applyPost_append, applyPost_append] at hout
  rw [hpost, batchRows_filters, List.append_assoc, windowCounts_filters]
  obtain ⟨skipped, hskipped, hlimit⟩ := bind_ok hout
  obtain ⟨kept, hkept, hskip⟩ := bind_ok hskipped
  have hdrop : ∀ n, kept.drop (min n kept.length) = kept.drop n := by
    intro n
    rcases le_total n kept.length with hle | hle
    · rw [min_eq_left hle]
    · rw [min_eq_right hle, List.drop_length, List.drop_eq_nil_of_le hle]
  have hfirst : ∃ n, windowCounts eval (skip.toList.map .skip) (0, none) = .ok (n, none) ∧
      skipped = kept.drop n := by
    cases skip with
    | none => exact ⟨0, rfl, (Except.ok.inj hskip).symm⟩
    | some skip =>
        obtain ⟨rows', hop, hnil⟩ := bind_ok hskip
        obtain ⟨n, hn, hop⟩ := bind_ok hop
        refine ⟨n, ?_, ?_⟩
        · simp only [Option.toList_some, List.map_cons, List.map_nil, windowCounts, hn, ok_bind]
        · cases hnil
          rw [← hdrop]
          exact (Except.ok.inj hop).symm
  obtain ⟨n, hn, rfl⟩ := hfirst
  cases limit with
  | none =>
      refine ⟨kept, n, none, hkept, ?_, (Except.ok.inj hlimit).symm⟩
      rw [Option.toList_none, List.map_nil, List.append_nil]
      exact hn
  | some limit =>
      obtain ⟨rows', hop, hnil⟩ := bind_ok hlimit
      obtain ⟨m, hm, hop⟩ := bind_ok hop
      refine ⟨kept, n, some m, hkept, ?_, ?_⟩
      · cases skip with
        | none =>
            cases hn
            simp only [Option.toList_none, Option.toList_some, List.map_nil, List.map_cons,
              List.nil_append, windowCounts, hm, ok_bind]
        | some skip =>
            obtain ⟨k, hk, hn⟩ := bind_ok hn
            cases hn
            simp only [Option.toList_some, List.map_cons, List.map_nil, List.cons_append,
              List.nil_append, windowCounts, hk, hm, ok_bind]
      · cases hnil
        exact (Except.ok.inj hop).symm

end

/-! ### A streamed statement -/

/-- The morsels of a split stage, one after another, are its scan. -/
def Stage.InScanOrder (stage : Stage σ γ X V) : Prop :=
  ∀ fuel input rows, stage.morsels input ≠ [] →
    drainMorsels stage fuel (stage.morsels input) = .ok rows →
      ∃ fuel', runFrom (drain stage.pull fuel') (stage.start input) = .ok rows

/-- Every stage of a plan that is split is split in the order of its scan. -/
def Plan.InScanOrder : Plan σ γ X V → Prop
  | .stages prepare => ∀ params ready, prepare params = .ok ready →
      ∀ stage ∈ ready, stage.InScanOrder
  | .conjoin .. => True

section

variable [Values V] (sink : Sink V) {size : ℕ}

/-- A handoff nothing has been fed to. -/
structure Fresh (size : ℕ) (st : Streaming V) : Prop where
  batch : st.batch = size
  handed : st.handed = []
  stopped : st.stopped = false
  streamed : st.streamed = false

omit [Values V] in
theorem fresh_new (batch : ℕ) : Fresh (max batch 1) (Streaming.new batch : Streaming V) :=
  ⟨rfl, rfl, rfl, rfl⟩

omit [Values V] in
theorem Fresh.fed {st : Streaming V} (h : Fresh size st) (skip : ℕ) (limit : Option ℕ) :
    Fed sink size skip limit [] { st with skip, limit, streamed := true } where
  batch := h.batch
  sized := by
    change Sized size st.handed
    rw [h.handed]
    exact fun b hb => by cases hb
  answered := by
    change Answered sink st.handed
    rw [h.handed]
    exact Answered.nil
  flat := by
    change st.handed.flatten = _
    rw [h.handed]
    cases limit <;> simp [window]
  skipLeft := rfl
  limitLeft := by cases limit <;> simp
  going := h.stopped

theorem runBuffered_streamable {stage : Stage σ γ X V} (hs : stage.sink.streamable = true)
    (hscan : stage.InScanOrder) {fuel : ℕ} {input out : List (List V)}
    (h : runBuffered stage fuel input = .ok out) :
    ∃ n s' rows kept skip limit,
      (drain stage.pull n).exec (stage.start input) = (.ok rows, s') ∧
      batchRows stage.eval stage.sink.post rows = .ok kept ∧
      windowCounts stage.eval stage.sink.post (0, none) = .ok (skip, limit) ∧
      out = window skip limit (kept.map Row.values) := by
  have hagg : stage.sink.aggregate = false := (stage.sink.streamable_post hs).1
  have hrows : ∃ n rows, runFrom (drain stage.pull n) (stage.start input) = .ok rows ∧
      (applyPost stage.eval stage.sink.post rows >>= fun rows => pure (rows.map Row.values)) =
        .ok out := by
    unfold runBuffered at h
    split at h
    · obtain ⟨rows, hrows, hout⟩ := bind_ok h
      rw [collect, hagg] at hrows
      exact ⟨fuel, rows, hrows, hout⟩
    · rename_i hsplit
      obtain ⟨rows, hrows, hout⟩ := bind_ok h
      rw [collectParallel, hagg] at hrows
      have hne : stage.morsels input ≠ [] := fun hnil => hsplit (by rw [hnil]; rfl)
      obtain ⟨n, hn⟩ := hscan fuel input rows hne hrows
      exact ⟨n, rows, hn, hout⟩
  obtain ⟨n, rows, hdrain, hout⟩ := hrows
  obtain ⟨s', hdrain⟩ := runFrom_ok hdrain
  obtain ⟨posted, hposted, hout⟩ := bind_ok hout
  obtain ⟨kept, skip, limit, hkept, hcounts, rfl⟩ := applyPost_streamable hs hposted
  exact ⟨n, s', rows, kept, skip, limit, hdrain, hkept, hcounts, by
    rw [← window_map]
    exact (Except.ok.inj hout).symm⟩

/-- A streamed stage hands over what the buffered one returns. -/
theorem runStageStream_triple (hsize : 0 < size) {stage : Stage σ γ X V} {n : ℕ} {s s' : σ}
    {rows kept : List (Row V)} {skip : ℕ} {limit : Option ℕ}
    (hdrain : (drain stage.pull n).exec s = (.ok rows, s'))
    (hkept : batchRows stage.eval stage.sink.post rows = .ok kept)
    (hcounts : windowCounts stage.eval stage.sink.post (0, none) = .ok (skip, limit)) :
    Triple (fun t => t.1 = s ∧ Fresh size t.2) (runStageStream stage sink n)
      (fun _ t => Finished sink size (window skip limit (kept.map Row.values)) t.2)
      (fun t => Cut sink size (window skip limit (kept.map Row.values)) t.2) := by
  rw [runStageStream, hcounts]
  refine Triple.bind (Q := fun _ t => t.1 = s ∧ Fed sink size skip limit [] t.2)
    ((onHandoff_triple (P := Fresh size) (Q := fun _ => Fed sink size skip limit [])
      (E := fun _ => False) (Triple.update fun st hst => hst.fed sink skip limit) s).weaken
      (fun _ h => h) (fun _ _ h => h) fun _ h => h.elim) fun _ => ?_
  refine Triple.readState fun t ht => ?_
  refine Triple.ite (fun _ => ?_) fun hdone => Triple.pure fun u hu => ?_
  · rw [ht.2.batch]
    exact (streamLoop_triple hsize hdrain hkept).weaken (fun u hu => hu ▸ ht) (fun _ _ h => h)
      fun _ h => h
  · rw [hu]
    exact ht.2.over (Bool.eq_false_iff.2 hdone) _

omit [Values V] in
/-- Rows that arrive whole are handed over in order. -/
theorem handOverAll_triple (hsize : 0 < size) (rows : List (List V)) :
    Triple (Fresh size) (handOverAll sink rows)
      (fun _ st => Finished sink size rows st) (Cut sink size rows) := by
  refine Triple.readState fun st hst => ?_
  have hsized : Sized size (chunks st.batch rows) := by
    rw [hst.batch]
    exact fun b hb => mem_chunksFrom hsize _ hb
  have hnil : Sized size st.handed := by
    rw [hst.handed]
    exact fun b hb => by cases hb
  have hans : Answered sink st.handed := by
    rw [hst.handed]
    exact Answered.nil
  have hflat : (st.handed ++ chunks st.batch rows).flatten = rows := by
    rw [hst.handed, List.nil_append, flatten_chunks (by rw [hst.batch]; exact hsize)]
  have hover := handOverEach_triple hsized st hst.stopped hnil hans
  rw [hflat] at hover
  refine hover.weaken (fun _ h => h) (fun _ t ht => ?_) fun _ h => h
  rcases ht with ⟨ha, m, rfl⟩ | ⟨-, hfin, -⟩
  · have hall : Sized size (st.handed ++ chunks st.batch rows) := fun b hb =>
      (List.mem_append.1 hb).elim (hnil b) (hsized b)
    exact ⟨hall, ha.asked, ⟨[], by rw [List.append_nil]; exact hflat⟩, fun _ => hflat⟩
  · exact hfin

/-- Whether the last of the stages hands its rows over as it makes them. -/
def streamsLast : List (Stage σ γ X V) → Bool
  | [] => false
  | [stage] => stage.sink.streamable
  | _ :: next :: stages => streamsLast (next :: stages)

theorem runLast_streamed (hsize : 0 < size) {stage : Stage σ γ X V}
    (hs : stage.sink.streamable = true) (hscan : stage.InScanOrder) {fuel : ℕ}
    {input out : List (List V)} (h : runBuffered stage fuel input = .ok out) :
    ∃ n, ∀ m, n ≤ m → Triple (Fresh size) (runLast stage sink m input)
      (fun rows st => rows = [] ∧ Finished sink size out st) (Cut sink size out) := by
  obtain ⟨n, s', rows, kept, skip, limit, hdrain, hkept, hcounts, rfl⟩ :=
    runBuffered_streamable hs hscan h
  refine ⟨n, fun m hm st hst => ?_⟩
  obtain ⟨hok, herr⟩ := runStageStream_triple sink hsize
    (drain_mono hm hdrain) hkept hcounts (stage.start input, st) ⟨rfl, hst⟩
  cases hrun : (runStageStream stage sink m).exec (stage.start input, st) with
  | mk r t =>
      have hexec : (runLast stage sink m input).exec st = (r.map fun _ => [], t.2) := by
        change runLast stage sink m input st = _
        rw [runLast, if_pos hs, hrun]
      rw [hexec]
      cases r with
      | ok a =>
          refine ⟨fun a' u hu => ?_, fun e u hu => by cases hu⟩
          cases hu
          exact ⟨rfl, hok a t hrun⟩
      | error e =>
          refine ⟨fun a' u hu => (by cases hu), fun e' u hu => ?_⟩
          cases hu
          exact herr e t hrun

/-- Stages whose last one streams hand the answer over, and nothing comes back. -/
theorem runStreamed_streamed (hsize : 0 < size) {ready : List (Stage σ γ X V)}
    (hs : streamsLast ready = true) (hscan : ∀ stage ∈ ready, stage.InScanOrder) {fuel : ℕ}
    {input out : List (List V)} (h : runBufferedAll fuel ready input = .ok out) :
    ∃ n, ∀ m, n ≤ m → Triple (Fresh size) (runStreamed sink m ready input)
      (fun rows st => rows = [] ∧ Finished sink size out st) (Cut sink size out) := by
  induction ready generalizing input with
  | nil => cases hs
  | cons stage rest ih =>
      obtain ⟨rows, hrows, h⟩ := bind_ok h
      cases rest with
      | nil =>
          cases h
          exact runLast_streamed sink hsize hs (hscan stage List.mem_cons_self) hrows
      | cons next rest =>
          obtain ⟨n, hn⟩ := ih hs (fun s hs => hscan s (List.mem_cons_of_mem _ hs)) h
          refine ⟨max n fuel, fun m hm => ?_⟩
          rw [runStreamed, runBuffered_mono (le_trans (le_max_right _ _) hm) hrows]
          exact hn m (le_trans (le_max_left _ _) hm)

/-- Stages whose last one does not stream hand nothing over, and the rows come back. -/
theorem runStreamed_whole {ready : List (Stage σ γ X V)} (hs : streamsLast ready = false)
    {fuel : ℕ} {input out : List (List V)} (h : runBufferedAll fuel ready input = .ok out)
    {m : ℕ} (hm : fuel ≤ m) (st : Streaming V) :
    (runStreamed sink m ready input).exec st = (.ok out, st) := by
  induction ready generalizing input with
  | nil => cases h; rfl
  | cons stage rest ih =>
      obtain ⟨rows, hrows, h⟩ := bind_ok h
      have hrows := runBuffered_mono hm hrows
      cases rest with
      | nil =>
          cases h
          change runLast stage sink m input st = _
          have hnot : ¬ stage.sink.streamable = true := Bool.eq_false_iff.1 hs
          rw [runLast, if_neg hnot, hrows]
      | cons next rest =>
          rw [runStreamed, hrows]
          exact ih hs h

theorem runBufferedAll_mono {ready : List (Stage σ γ X V)} {fuel fuel' : ℕ}
    (hle : fuel ≤ fuel') {input out : List (List V)}
    (h : runBufferedAll fuel ready input = .ok out) :
    runBufferedAll fuel' ready input = .ok out := by
  induction ready generalizing input with
  | nil => exact h
  | cons stage rest ih =>
      obtain ⟨rows, hrows, h⟩ := bind_ok h
      rw [runBufferedAll, runBuffered_mono hle hrows, ok_bind]
      exact ih h

theorem Plan.run_mono {plan : Plan σ γ X V} {fuel fuel' : ℕ} (hle : fuel ≤ fuel')
    {params : List V} {rows : List (List V)} (h : plan.run fuel params = .ok rows) :
    plan.run fuel' params = .ok rows := by
  induction plan generalizing rows with
  | stages prepare =>
      obtain ⟨ready, hready, h⟩ := bind_ok h
      rw [Plan.run, hready, ok_bind]
      exact runBufferedAll_mono hle h
  | conjoin left right how build ihl ihr =>
      obtain ⟨lrows, hl, h⟩ := bind_ok h
      rw [Plan.run, ihl hl, ok_bind]
      cases how with
      | otherwise =>
          simp only at h ⊢
          split at h
          · rename_i hempty
            rw [if_pos hempty]
            exact ihr h
          · rename_i hempty
            rw [if_neg hempty]
            exact h
      | set op all =>
          obtain ⟨rrows, hr, h⟩ := bind_ok h
          simp only [ihr hr, ok_bind]
          exact h

/-- Whether the rows of a plan are handed over as they are made. -/
def Plan.streams (params : List V) : Plan σ γ X V → Bool
  | .stages prepare =>
      match prepare params with
      | .error _ => false
      | .ok ready => streamsLast ready
  | .conjoin .. => false

theorem Plan.runStreamed_streamed (hsize : 0 < size) {plan : Plan σ γ X V}
    {params : List V} (hs : plan.streams params = true) (hscan : plan.InScanOrder) {fuel : ℕ}
    {out : List (List V)} (h : plan.run fuel params = .ok out) :
    ∃ n, ∀ m, n ≤ m → Triple (Fresh size) (plan.runStreamed sink m params)
      (fun rows st => rows = [] ∧ Finished sink size out st) (Cut sink size out) := by
  cases plan with
  | stages prepare =>
      obtain ⟨ready, hready, h⟩ := bind_ok h
      rw [Plan.streams, hready] at hs
      obtain ⟨n, hn⟩ := Query.runStreamed_streamed sink hsize hs
        (hscan params ready hready) h
      refine ⟨n, fun m hm => ?_⟩
      rw [Plan.runStreamed, hready]
      exact hn m hm
  | conjoin left right how build => cases hs

theorem Plan.runStreamed_whole {plan : Plan σ γ X V} {params : List V}
    (hs : plan.streams params = false) {fuel : ℕ} {out : List (List V)}
    (h : plan.run fuel params = .ok out) {m : ℕ} (hm : fuel ≤ m) (st : Streaming V) :
    (plan.runStreamed sink m params).exec st = (.ok out, st) := by
  cases plan with
  | stages prepare =>
      obtain ⟨ready, hready, h⟩ := bind_ok h
      rw [Plan.streams, hready] at hs
      rw [Plan.runStreamed, hready]
      exact Query.runStreamed_whole sink hs h hm st
  | conjoin left right how build =>
      change ((Plan.conjoin left right how build).run m params, st) = _
      rw [Plan.run_mono hm h]

/-- A streamed statement hands over the answer. -/
theorem executeStreaming_triple (hsize : 0 < size) {plan : Plan σ γ X V}
    (hscan : plan.InScanOrder) {fuel : ℕ} {params : List V} {out : List (List V)}
    (h : execute fuel params plan = .ok out) :
    ∃ n, ∀ m, n ≤ m → Triple (Fresh size) (executeStreaming sink m params plan)
      (fun _ st => Finished sink size out st) (Cut sink size out) := by
  cases hs : plan.streams params with
  | true =>
      obtain ⟨n, hn⟩ := Plan.runStreamed_streamed sink hsize hs hscan h
      refine ⟨n, fun m hm => (hn m hm).bind fun rows => Triple.readState fun st hst => ?_⟩
      obtain ⟨rfl, hfin⟩ := hst
      refine Triple.ite (fun _ => ?_) fun _ => Triple.pure fun t ht => ht ▸ hfin
      -- nothing came back, so nothing is handed over again
      refine Triple.readState fun t ht => Triple.pure fun u hu => ?_
      rw [hu, ht]
      exact hfin
  | false =>
      refine ⟨fuel, fun m hm st hst => ?_⟩
      have hwhole := Plan.runStreamed_whole sink hs h hm st
      have hexec : (executeStreaming sink m params plan).exec st =
          (handOverAll sink out).exec st := by
        rw [executeStreaming, exec_bind_of hwhole, exec_bind_of (exec_get st), hst.streamed,
          hst.stopped]
        rfl
      rw [hexec]
      exact handOverAll_triple sink hsize out st hst

end

end Query

end Zu

/-!
## A stage over rows

`RowSource` reads the rows of the stage under it a vector at a time. A stage over it
answers those rows, however they are cut into vectors and morsels.
-/

namespace Zu

namespace Query

open Lib

/-- `Literal`, of which conditions and counts are written. -/
inductive Literal
  | null
  | bool (b : Bool)
  | int (i : ℤ)
  deriving DecidableEq, Repr

instance : Values Literal where
  null := .null
  bool := .bool
  isNull v := v == .null
  int? | .int i => some i | _ => none
  bool? | .bool b => some b | _ => none
  order
    | .int a, .int b => compare a b
    | .bool a, .bool b => compare a b
    | .null, .null => .eq
    | .bool _, _ => .lt
    | _, .bool _ => .gt
    | .int _, _ => .lt
    | _, .int _ => .gt
  debug | .null => "Null" | .bool b => s!"Bool({b})" | .int i => s!"Int({i})"
  typeName | .null => "NULL" | .bool _ => "BOOL" | .int _ => "INT64"
  bool_inj _ _ h := by cases h; rfl

variable {γ X V : Type}

/-- The row a projection of all the columns makes. -/
def Row.ofValues (values : List V) : Row V := { values }

/-- `OpDesc::RowSource`, `vector` rows a pull. -/
def rowSource (vector : ℕ) (groups : γ) : Pull (List (List V)) γ V where
  next := do
    let rows ← get
    return !rows.isEmpty
  emit := do
    let rows ← get
    set (rows.drop vector)
    return (rows.take vector).map Row.ofValues
  update := fun groups => do
    modify fun rows => rows.drop vector
    return groups
  close := fun _ => return []
  noGroups := groups
  merge := fun groups _ => .ok groups

variable {vector : ℕ} {groups : γ}

theorem drain_rowSource (hv : 0 < vector) {rows : List (List V)} {fuel : ℕ}
    (hfuel : rows.length < fuel) :
    (drain (rowSource vector groups) fuel).exec rows = (.ok (rows.map Row.ofValues), []) := by
  induction fuel generalizing rows with
  | zero => cases hfuel
  | succ fuel ih =>
      cases rows with
      | nil => rfl
      | cons row rest =>
          have hshort : ((row :: rest).drop vector).length < fuel := by
            rw [List.length_drop]
            simp only [List.length_cons] at hfuel ⊢
            omega
          have hnext : (rowSource vector groups).next.exec (row :: rest) =
              (.ok true, row :: rest) := rfl
          have hemit : (rowSource vector groups).emit.exec (row :: rest) =
              (.ok (((row :: rest).take vector).map Row.ofValues),
                (row :: rest).drop vector) := rfl
          rw [drain, exec_bind_of hnext, if_pos rfl, exec_bind_of hemit,
            exec_bind_of (ih hshort)]
          change (Except.ok (List.map Row.ofValues ((row :: rest).take vector) ++
            List.map Row.ofValues ((row :: rest).drop vector)), _) = _
          rw [← List.map_append, List.take_append_drop]

/-- A stage over rows, cut into morsels. -/
def overRows (vector : ℕ) (sink : SinkDef X) (eval : Eval X V) (rows : List (List V))
    (morsels : List (List (List V))) : Stage (List (List V)) Unit X V where
  pull := rowSource vector ()
  sink := sink
  eval := eval
  start := fun _ => rows
  morsels := fun _ => morsels

theorem drainMorsels_overRows (hv : 0 < vector) {sink : SinkDef X} {eval : Eval X V}
    {rows : List (List V)} {morsels parts : List (List (List V))} {fuel : ℕ}
    {out : List (Row V)}
    (h : drainMorsels (overRows vector sink eval rows morsels) fuel parts = .ok out) :
    out = parts.flatten.map Row.ofValues := by
  induction parts generalizing out with
  | nil => exact (Except.ok.inj h).symm
  | cons part parts ih =>
      obtain ⟨head, hhead, h⟩ := bind_ok h
      obtain ⟨rest, hrest, h⟩ := bind_ok h
      obtain ⟨s', hhead⟩ := runFrom_ok hhead
      have hmore := drain_mono (le_max_left fuel (part.length + 1)) hhead
      have hall := @drain_rowSource _ _ _ () hv _ _
        (lt_of_lt_of_le (Nat.lt_succ_self part.length) (le_max_right fuel _))
      have hpart : head = part.map Row.ofValues := by
        have heq := hmore.symm.trans hall
        simp only [Prod.mk.injEq, Except.ok.injEq] at heq
        exact heq.1
      rw [← Except.ok.inj h, hpart, ih hrest, List.flatten_cons, List.map_append]

theorem overRows_inScanOrder (hv : 0 < vector) (sink : SinkDef X) (eval : Eval X V)
    (morsels : List (List (List V))) :
    (overRows vector sink eval morsels.flatten morsels).InScanOrder := by
  intro fuel input rows _ h
  refine ⟨morsels.flatten.length + 1, ?_⟩
  have hdrain := @drain_rowSource _ _ _ () hv _ _
    (Nat.lt_succ_self morsels.flatten.length)
  rw [drainMorsels_overRows hv h]
  exact congrArg Prod.fst hdrain

/-- A condition or a count that is written as a literal. -/
def evalLiteral : Eval Literal Literal := fun _ lit => .ok lit

end Query

end Zu
