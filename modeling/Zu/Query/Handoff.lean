import Zu.Query.Streaming

/-!
# What a handoff hands over

The rows a streaming run hands over are the rows the buffered run returns. `Fed` is
what holds while the rows `xs` of the answer have been fed and nobody has stopped:
the window has been spent on `xs` and on nothing else.
-/

namespace Zu.Query

open Lib

variable {σ γ X V : Type}

/-! ### Windows and batches -/

def window {α : Type} (skip : ℕ) (limit : Option ℕ) (xs : List α) : List α :=
  match limit with
  | some n => (xs.drop skip).take n
  | none => xs.drop skip

attribute [grind =] window

/-- A window over two pieces is spent on the first, and what is left of it on the
second. -/
theorem window_append {α : Type} (skip : ℕ) (limit : Option ℕ) (xs ys : List α) :
    window skip limit (xs ++ ys) =
      window skip limit xs ++
        window (skip - xs.length) (limit.map (· - (xs.length - skip))) ys := by
  cases limit with
  | none => exact List.drop_append
  | some n =>
      simp only [window, Option.map_some]
      rw [List.drop_append, List.take_append, List.length_drop]

theorem window_map {α β : Type} (f : α → β) (skip : ℕ) (limit : Option ℕ) (xs : List α) :
    (window skip limit xs).map f = window skip limit (xs.map f) := by
  cases limit with
  | none => exact List.map_drop
  | some n => rw [window, window, List.map_take, List.map_drop]

theorem window_zero {α : Type} (skip : ℕ) (xs : List α) : window skip (some 0) xs = [] := by
  rw [window, List.take_zero]

theorem window_initial {α : Type} (skip : ℕ) (limit : Option ℕ) (xs ys : List α) :
    window skip limit xs <+: window skip limit (xs ++ ys) := by
  rw [window_append]
  exact List.prefix_append _ _

theorem flatten_chunksFrom {n : ℕ} (hn : 0 < n) (fuel : ℕ) {rows : List (List V)}
    (hfuel : rows.length ≤ fuel) : (chunksFrom n fuel rows).flatten = rows := by
  induction fuel generalizing rows with
  | zero => rw [List.length_eq_zero_iff.1 (Nat.le_zero.1 hfuel)]; rfl
  | succ fuel ih =>
      cases rows with
      | nil => rfl
      | cons row rest =>
          have hdrop : ((row :: rest).drop n).length ≤ fuel := by
            rw [List.length_drop]
            omega
          change (row :: rest).take n ++ (chunksFrom n fuel ((row :: rest).drop n)).flatten = _
          rw [ih hdrop, List.take_append_drop]

theorem mem_chunksFrom {n : ℕ} (hn : 0 < n) (fuel : ℕ) {rows : List (List V)}
    {b : List (List V)} (hb : b ∈ chunksFrom n fuel rows) : b ≠ [] ∧ b.length ≤ n := by
  induction fuel generalizing rows with
  | zero => cases hb
  | succ fuel ih =>
      cases rows with
      | nil => cases hb
      | cons row rest =>
          rcases List.mem_cons.1 hb with rfl | hb
          · refine ⟨fun hnil => ?_, List.length_take_le _ _⟩
            rcases List.take_eq_nil_iff.1 hnil with hzero | hnil
            · exact hn.ne' hzero
            · cases hnil
          · exact ih hb

theorem flatten_chunks {n : ℕ} (hn : 0 < n) (rows : List (List V)) :
    (chunks n rows).flatten = rows := flatten_chunksFrom hn _ le_rfl

/-! ### What the sink has been told -/

/-- Every batch the sink was handed was answered with more. -/
def Answered (sink : Sink V) (h : List (List (List V))) : Prop :=
  ∀ hs b rest, h = hs ++ b :: rest → sink hs b = .ok .more

/-- The sink was never called again after an answer that was not more. -/
def Asked (sink : Sink V) (h : List (List (List V))) : Prop :=
  ∀ hs b rest, h = hs ++ b :: rest → rest ≠ [] → sink hs b = .ok .more

/-- No batch is empty, and none is larger than the size asked for. -/
def Sized (size : ℕ) (h : List (List (List V))) : Prop :=
  ∀ b ∈ h, b ≠ [] ∧ b.length ≤ size

variable {sink : Sink V} {size : ℕ}

theorem Answered.nil : Answered sink [] := by
  intro hs b rest h
  cases hs <;> cases h

theorem Answered.asked {h : List (List (List V))} (ha : Answered sink h) : Asked sink h :=
  fun hs b rest heq _ => ha hs b rest heq

theorem Answered.asked_snoc {h : List (List (List V))} (ha : Answered sink h)
    (b : List (List V)) : Asked sink (h ++ [b]) := by
  intro hs c rest heq hrest
  rcases List.eq_nil_or_concat rest with rfl | ⟨rest, d, rfl⟩
  · exact absurd rfl hrest
  · have hsplit : h ++ [b] = hs ++ c :: rest ++ [d] := by rw [heq]; simp
    exact ha hs c rest (List.append_inj_left' hsplit rfl)

theorem Answered.snoc {h : List (List (List V))} (ha : Answered sink h) {b : List (List V)}
    (hb : sink h b = .ok .more) : Answered sink (h ++ [b]) := by
  intro hs c rest heq
  by_cases hrest : rest = []
  · subst hrest
    obtain ⟨rfl, hlast⟩ := List.append_inj' heq rfl
    cases hlast
    exact hb
  · exact ha.asked_snoc b hs c rest heq hrest

/-- The whole answer was handed over unless the sink said stop. -/
structure Finished (sink : Sink V) (size : ℕ) (answer : List (List V))
    (st : Streaming V) : Prop where
  sized : Sized size st.handed
  asked : Asked sink st.handed
  part : st.handed.flatten <+: answer
  whole : Answered sink st.handed → st.handed.flatten = answer

/-- A part of the answer was handed over when the sink raised an error. -/
structure Cut (sink : Sink V) (size : ℕ) (answer : List (List V))
    (st : Streaming V) : Prop where
  sized : Sized size st.handed
  asked : Asked sink st.handed
  part : st.handed.flatten <+: answer
  raised : ∃ hs b e, sink hs b = .error e

theorem Cut.mono {answer answer' : List (List V)} {st : Streaming V}
    (h : Cut sink size answer st) (hle : answer <+: answer') : Cut sink size answer' st :=
  ⟨h.sized, h.asked, h.part.trans hle, h.raised⟩

/-- The rows `xs` have been fed and nobody has stopped. -/
structure Fed (sink : Sink V) (size skip : ℕ) (limit : Option ℕ) (xs : List (List V))
    (st : Streaming V) : Prop where
  batch : st.batch = size
  sized : Sized size st.handed
  answered : Answered sink st.handed
  flat : st.handed.flatten = window skip limit xs
  skipLeft : st.skip = skip - xs.length
  limitLeft : st.limit = limit.map (· - (xs.length - skip))
  going : st.stopped = false

/-- The answer is over, whatever rows would come after `xs`. -/
def Over (sink : Sink V) (size skip : ℕ) (limit : Option ℕ) (xs : List (List V))
    (st : Streaming V) : Prop :=
  ∀ ys, Finished sink size (window skip limit (xs ++ ys)) st

variable {skip : ℕ} {limit : Option ℕ} {xs : List (List V)} {st : Streaming V}

theorem Over.append (h : Over sink size skip limit xs st) (ys : List (List V)) :
    Over sink size skip limit (xs ++ ys) st := by
  intro zs
  rw [List.append_assoc]
  exact h (ys ++ zs)

theorem Fed.finished (h : Fed sink size skip limit xs st) :
    Finished sink size (window skip limit xs) st :=
  ⟨h.sized, h.answered.asked, h.flat ▸ List.prefix_rfl, fun _ => h.flat⟩

theorem Fed.over (h : Fed sink size skip limit xs st) (hmore : st.wantsMore = false) :
    Over sink size skip limit xs st := by
  intro ys
  have hspent : st.limit = some 0 := by
    simpa [Streaming.wantsMore, h.going] using hmore
  rw [window_append, ← h.limitLeft, hspent, window_zero, List.append_nil]
  exact h.finished

theorem handOver_triple {h : List (List (List V))} {b : List (List V)} (hb : b ≠ [])
    (st₀ : Streaming V) (hst : st₀.handed = h) :
    Triple (· = st₀) (handOver sink b)
      (fun flow st => sink h b = .ok flow ∧ ∃ n, st = { st₀ with
        rows := n, handed := h ++ [b], stopped := st₀.stopped || flow = .stop })
      (fun st => (∃ e, sink h b = .error e) ∧ st.handed = h ++ [b]) := by
  have hempty : b.isEmpty = false := by cases b <;> [exact absurd rfl hb; rfl]
  rw [handOver, hempty]
  refine Triple.readState fun st hs => ?_
  subst hs
  refine Triple.bind (Q := fun _ t => t = { st with
    rows := st.rows + b.length, handed := st.handed ++ [b] })
    (Triple.update fun t _ => rfl) fun _ => ?_
  subst hst
  cases hsink : sink st.handed b with
  | error e => exact Triple.throw fun t ht => ⟨⟨e, rfl⟩, by rw [ht]⟩
  | ok flow =>
      cases flow with
      | more =>
          refine Triple.pure fun t ht => ⟨rfl, st.rows + b.length, ?_⟩
          rw [ht]
          simp
      | stop =>
          refine Triple.bind (Q := fun _ t => t = { st with
            rows := st.rows + b.length, handed := st.handed ++ [b], stopped := true })
            (Triple.update fun t ht => by rw [ht]) fun _ => Triple.pure fun t ht => ?_
          refine ⟨rfl, st.rows + b.length, ?_⟩
          rw [ht]
          simp

/-- Batches handed over in order, until the sink stops them. -/
theorem handOverEach_triple {cs : List (List (List V))} (hcs : Sized size cs)
    (st₀ : Streaming V) (hgoing : st₀.stopped = false)
    (hsized : Sized size st₀.handed) (hanswered : Answered sink st₀.handed) :
    Triple (· = st₀) (handOverEach sink cs)
      (fun _ st => (Answered sink st.handed ∧ ∃ n, st = { st₀ with
          rows := n, handed := st₀.handed ++ cs }) ∨
        (st.stopped = true ∧ Finished sink size (st₀.handed ++ cs).flatten st ∧
          ¬ Answered sink st.handed))
      (Cut sink size (st₀.handed ++ cs).flatten) := by
  induction cs generalizing st₀ with
  | nil =>
      refine Triple.pure fun st hs => Or.inl ?_
      subst hs
      exact ⟨hanswered, st.rows, by rw [List.append_nil]⟩
  | cons b rest ih =>
      have hb := hcs b List.mem_cons_self
      have hpart : (st₀.handed ++ [b]).flatten <+: (st₀.handed ++ b :: rest).flatten := by
        rw [List.flatten_append, List.flatten_append, List.flatten_cons, List.flatten_cons]
        exact ⟨rest.flatten, by simp⟩
      have hsnoc : Sized size (st₀.handed ++ [b]) := by
        intro c hc
        rcases List.mem_append.1 hc with hc | hc
        · exact hsized c hc
        · rw [List.mem_singleton.1 hc]
          exact hb
      refine Triple.bind ((handOver_triple hb.1 st₀ rfl).weaken (fun _ h => h)
        (fun _ _ h => h) fun st hst => ?_) fun flow => ?_
      · obtain ⟨⟨e, he⟩, hst⟩ := hst
        refine ⟨?_, ?_, ?_, _, _, e, he⟩ <;> rw [hst]
        · exact hsnoc
        · exact hanswered.asked_snoc b
        · exact hpart
      rintro st ⟨hsink, n, rfl⟩
      cases flow with
      | stop =>
          refine ⟨fun a t ht => Or.inr ?_, fun e t ht => by cases ht⟩
          cases ht
          have hnot : ¬ Answered sink (st₀.handed ++ [b]) := by
            intro ha
            have hmore := ha st₀.handed b [] rfl
            rw [hsink] at hmore
            cases hmore
          refine ⟨by simp, ⟨hsnoc, hanswered.asked_snoc b, hpart, fun ha => absurd ha hnot⟩, hnot⟩
      | more =>
          have hgo : (st₀.stopped || decide (Flow.more = Flow.stop)) = false := by
            rw [hgoing]
            rfl
          rw [hgo]
          have hrest := ih (fun c hc => hcs c (List.mem_cons_of_mem _ hc))
            { st₀ with rows := n, handed := st₀.handed ++ [b], stopped := false } rfl hsnoc
            (hanswered.snoc hsink)
          simp only [List.append_assoc, List.singleton_append] at hrest
          refine hrest.weaken (fun _ h => h) (fun _ t ht => ?_) (fun _ h => h) _ rfl
          rcases ht with ⟨ha, m, rfl⟩ | ht
          · exact Or.inl ⟨ha, m, by rw [hgoing]⟩
          · exact Or.inr ht

theorem feed_triple (hsize : 0 < size) (rows : List (List V)) :
    Triple (Fed sink size skip limit xs) (feed sink rows)
      (fun more st => (more = true ∧ Fed sink size skip limit (xs ++ rows) st) ∨
        (more = false ∧ Over sink size skip limit (xs ++ rows) st))
      (Cut sink size (window skip limit (xs ++ rows))) := by
  refine Triple.readState fun st hfed => ?_
  -- what is handed over is the window that is left, over this piece
  set kept := window st.skip st.limit rows with hkept
  set st₁ : Streaming V := { st with
    skip := skip - (xs ++ rows).length
    limit := limit.map (· - ((xs ++ rows).length - skip)) } with hst₁
  have hdrop : rows.drop (min st.skip rows.length) = rows.drop st.skip := by
    rcases le_total st.skip rows.length with h | h
    · rw [min_eq_left h]
    · rw [min_eq_right h, List.drop_length, List.drop_eq_nil_of_le h]
  have hskip : st.skip - min st.skip rows.length = skip - (xs ++ rows).length := by
    rw [hfed.skipLeft, List.length_append]
    omega
  have hcut : ∀ left, (rows.drop st.skip).take (min left (rows.drop st.skip).length) =
      (rows.drop st.skip).take left := fun left => (List.take_eq_take_min).symm
  have hlimit : ∀ n, limit = some n →
      st.limit = some (n - (xs.length - skip)) ∧
        n - (xs.length - skip) - min (n - (xs.length - skip)) (rows.drop st.skip).length =
          n - ((xs ++ rows).length - skip) := by
    intro n hn
    refine ⟨by rw [hfed.limitLeft, hn]; rfl, ?_⟩
    rw [List.length_drop, hfed.skipLeft, List.length_append]
    omega
  have hanswer : st.handed.flatten ++ kept = window skip limit (xs ++ rows) := by
    rw [window_append, hfed.flat, hkept, hfed.skipLeft, hfed.limitLeft]
  suffices h : Triple (· = st₁) (do
      handOverEach sink (chunks st.batch kept)
      let st ← get
      return st.wantsMore : Handoff V Bool)
      (fun more st => (more = true ∧ Fed sink size skip limit (xs ++ rows) st) ∨
        (more = false ∧ Over sink size skip limit (xs ++ rows) st))
      (Cut sink size (window skip limit (xs ++ rows))) by
    cases hl : limit with
    | none =>
        have hnone : st.limit = none := by rw [hfed.limitLeft, hl]; rfl
        rw [hnone]
        refine Triple.bind (Q := fun _ => (· = st₁)) (Triple.update fun t _ => ?_) fun _ => ?_
        · rw [hst₁, hl, hskip]
          rfl
        · rw [hdrop]
          rw [hl, hkept, hnone] at h
          exact h
    | some n =>
        obtain ⟨hsome, hleft⟩ := hlimit n hl
        rw [hsome]
        refine Triple.bind (Q := fun _ => (· = st₁)) (Triple.update fun t _ => ?_) fun _ => ?_
        · simp only [hdrop]
          rw [hst₁, hl, hskip, hleft]
          rfl
        · simp only [hdrop, hcut]
          rw [hl, hkept, hsome] at h
          exact h
  have hbatch : 0 < st.batch := by rw [hfed.batch]; exact hsize
  have hsized : Sized size (chunks st.batch kept) := by
    rw [hfed.batch]
    exact fun b hb => mem_chunksFrom hsize _ hb
  have hflat : (st₁.handed ++ chunks st.batch kept).flatten =
      window skip limit (xs ++ rows) := by
    rw [List.flatten_append, flatten_chunks hbatch, hanswer]
  have hover := handOverEach_triple hsized st₁ hfed.going hfed.sized hfed.answered
  rw [hflat] at hover
  refine Triple.bind hover fun _ => Triple.readState fun t ht => Triple.pure fun u hu => ?_
  subst hu
  rcases ht with ⟨hans, m, rfl⟩ | ⟨hstop, hfin, hnot⟩
  · have hall : Sized size (st₁.handed ++ chunks st.batch kept) := fun b hb =>
      (List.mem_append.1 hb).elim (hfed.sized b) (hsized b)
    have hfed' : Fed sink size skip limit (xs ++ rows) { st₁ with
        rows := m, handed := st₁.handed ++ chunks st.batch kept } :=
      ⟨hfed.batch, hall, hans, hflat, rfl, rfl, hfed.going⟩
    cases hmore : Streaming.wantsMore { st₁ with
      rows := m, handed := st₁.handed ++ chunks st.batch kept } with
    | true => exact Or.inl ⟨rfl, hfed'⟩
    | false => exact Or.inr ⟨rfl, hfed'.over hmore⟩
  · refine Or.inr ⟨by rw [Streaming.wantsMore, hstop]; rfl, fun ys => ?_⟩
    exact ⟨hfin.sized, hfin.asked, hfin.part.trans (window_initial _ _ _ _),
      fun ha => absurd ha hnot⟩

/-! ### Streaming a stage -/

section

variable [Values V] {eval : Eval X V}

theorem keepRows_append {expr : X} {as bs kept : List (Row V)}
    (h : keepRows eval expr (as ++ bs) = .ok kept) :
    ∃ ka kb, keepRows eval expr as = .ok ka ∧ keepRows eval expr bs = .ok kb ∧
      kept = ka ++ kb := by
  induction as generalizing kept with
  | nil => exact ⟨[], kept, rfl, h, rfl⟩
  | cons a as ih =>
      simp only [List.cons_append, keepRows] at h ⊢
      cases hv : eval a.extra expr with
      | error e => rw [hv] at h; cases h
      | ok v =>
          rw [hv, ok_bind] at h
          cases hp : holds v with
          | error e => rw [hp] at h; cases h
          | ok pass =>
              rw [hp, ok_bind] at h
              cases hk : keepRows eval expr (as ++ bs) with
              | error e => rw [hk] at h; cases h
              | ok rest =>
                  obtain ⟨ka, kb, hka, hkb, rfl⟩ := ih hk
                  rw [hk, ok_bind] at h
                  simp only [ok_bind, hp, hka]
                  refine ⟨if pass then a :: ka else ka, kb, rfl, hkb, ?_⟩
                  have hkept := (Except.ok.inj h).symm
                  cases pass <;> exact hkept

theorem batchRows_append {post : List (PostOp X)} {as bs kept : List (Row V)}
    (h : batchRows eval post (as ++ bs) = .ok kept) :
    ∃ ka kb, batchRows eval post as = .ok ka ∧ batchRows eval post bs = .ok kb ∧
      kept = ka ++ kb := by
  induction post generalizing as bs with
  | nil => exact ⟨as, bs, rfl, rfl, (Except.ok.inj h).symm⟩
  | cons op ops ih =>
      cases op with
      | filter expr =>
          simp only [batchRows] at h ⊢
          cases hk : keepRows eval expr (as ++ bs) with
          | error e => rw [hk] at h; cases h
          | ok rest =>
              obtain ⟨ka, kb, hka, hkb, rfl⟩ := keepRows_append hk
              rw [hk, ok_bind] at h
              simp only [hka, hkb, ok_bind]
              exact ih h
      | skip expr => exact ih h
      | limit expr => exact ih h
      | sort keys => cases h
      | distinct => cases h

theorem keepRows_append_ok {expr : X} {as bs ka kb : List (Row V)}
    (ha : keepRows eval expr as = .ok ka) (hb : keepRows eval expr bs = .ok kb) :
    keepRows eval expr (as ++ bs) = .ok (ka ++ kb) := by
  induction as generalizing ka with
  | nil => cases ha; exact hb
  | cons a as ih =>
      simp only [List.cons_append, keepRows] at ha ⊢
      cases hv : eval a.extra expr with
      | error e => rw [hv] at ha; cases ha
      | ok v =>
          rw [hv, ok_bind] at ha
          cases hp : holds v with
          | error e => rw [hp] at ha; cases ha
          | ok pass =>
              rw [hp, ok_bind] at ha
              cases hk : keepRows eval expr as with
              | error e => rw [hk] at ha; cases ha
              | ok rest =>
                  rw [hk, ok_bind] at ha
                  simp only [ok_bind, hp, ih hk]
                  cases ha
                  cases pass <;> rfl

theorem batchRows_append_ok {post : List (PostOp X)} {as bs ka kb : List (Row V)}
    (ha : batchRows eval post as = .ok ka) (hb : batchRows eval post bs = .ok kb) :
    batchRows eval post (as ++ bs) = .ok (ka ++ kb) := by
  induction post generalizing as bs with
  | nil => cases ha; cases hb; rfl
  | cons op ops ih =>
      cases op with
      | filter expr =>
          simp only [batchRows] at ha hb ⊢
          cases hka : keepRows eval expr as with
          | error e => rw [hka] at ha; cases ha
          | ok as' =>
              cases hkb : keepRows eval expr bs with
              | error e => rw [hkb] at hb; cases hb
              | ok bs' =>
                  rw [hka, ok_bind] at ha
                  rw [hkb, ok_bind] at hb
                  rw [keepRows_append_ok hka hkb, ok_bind]
                  exact ih ha hb
      | skip expr => exact ih ha hb
      | limit expr => exact ih ha hb
      | sort keys => cases ha
      | distinct => cases ha

variable {post : List (PostOp X)}

theorem batchRows_nil {kept : List (Row V)} (h : batchRows eval post [] = .ok kept) :
    kept = [] := by
  obtain ⟨ka, kb, hka, hkb, hk⟩ := @batchRows_append _ _ _ eval post [] [] kept h
  have ha : ka = kept := Except.ok.inj (hka.symm.trans h)
  have hb : kb = kept := Except.ok.inj (hkb.symm.trans h)
  rw [ha, hb] at hk
  exact List.self_eq_append_right.1 hk

theorem streamBatch_triple (hsize : 0 < size) {rows kept : List (Row V)}
    (hkept : batchRows eval post rows = .ok kept) :
    Triple (Fed sink size skip limit xs) (streamBatch sink eval post rows)
      (fun more st =>
        (more = true ∧ Fed sink size skip limit (xs ++ kept.map Row.values) st) ∨
        (more = false ∧ Over sink size skip limit (xs ++ kept.map Row.values) st))
      (Cut sink size (window skip limit (xs ++ kept.map Row.values))) := by
  rw [streamBatch, hkept]
  exact feed_triple hsize _

/-- The full batches of a buffer are fed in order, and what is left of it is not. -/
theorem drainBatches_triple (hsize : 0 < size) (fuel : ℕ) {buf kept : List (Row V)}
    (hkept : batchRows eval post buf = .ok kept) :
    Triple (Fed sink size skip limit xs) (drainBatches sink eval post size fuel buf)
      (fun r st =>
        (∃ left k₁ k₂, r = some left ∧ batchRows eval post left = .ok k₂ ∧
          kept = k₁ ++ k₂ ∧ Fed sink size skip limit (xs ++ k₁.map Row.values) st) ∨
        (r = none ∧ Over sink size skip limit (xs ++ kept.map Row.values) st))
      (Cut sink size (window skip limit (xs ++ kept.map Row.values))) := by
  induction fuel generalizing buf kept xs with
  | zero =>
      refine Triple.pure fun st hst => Or.inl ⟨buf, [], kept, rfl, hkept, rfl, ?_⟩
      rwa [List.map_nil, List.append_nil]
  | succ fuel ih =>
      refine Triple.ite (fun hfull => ?_) fun _ => ?_
      · have hsplit : batchRows eval post (buf.take size ++ buf.drop size) = .ok kept := by
          rwa [List.take_append_drop]
        obtain ⟨ka, kb, hka, hkb, rfl⟩ := batchRows_append hsplit
        have hwhole : xs ++ (ka ++ kb).map Row.values =
            xs ++ ka.map Row.values ++ kb.map Row.values := by
          rw [List.map_append, List.append_assoc]
        refine Triple.bind ((streamBatch_triple hsize hka).weaken (fun _ h => h)
          (fun _ _ h => h) fun st hst => ?_) fun more => ?_
        · rw [hwhole]
          exact hst.mono (window_initial _ _ _ _)
        · cases more with
          | true =>
              refine (@ih (xs ++ ka.map Row.values) _ _ hkb).weaken (fun st hst => ?_)
                (fun r st hst => ?_) fun st hst => ?_
              · exact (hst.resolve_right fun h => by cases h.1).2
              · rcases hst with ⟨left, k₁, k₂, rfl, hleft, rfl, hfed⟩ | ⟨rfl, hover⟩
                · refine Or.inl ⟨left, ka ++ k₁, k₂, rfl, hleft, ?_, ?_⟩
                  · rw [List.append_assoc]
                  · rwa [List.map_append, ← List.append_assoc]
                · exact Or.inr ⟨rfl, hwhole ▸ hover⟩
              · rw [hwhole]
                exact hst
          | false =>
              refine Triple.pure fun st hst => Or.inr ⟨rfl, ?_⟩
              rw [hwhole]
              exact (hst.resolve_left fun h => by cases h.1).2.append _
      · refine Triple.pure fun st hst => Or.inl ⟨buf, [], kept, rfl, hkept, rfl, ?_⟩
        rwa [List.map_nil, List.append_nil]

omit [Values V] in
theorem onPull_triple {α : Type} {x : Fallible QueryError σ α} {s s' : σ} {a : α}
    (hx : x.exec s = (.ok a, s')) {P : Streaming V → Prop}
    {E : σ × Streaming V → Prop} :
    Triple (fun t => t.1 = s ∧ P t.2) (onPull x)
      (fun b t => b = a ∧ t.1 = s' ∧ P t.2) E := by
  rintro ⟨s, st⟩ ⟨rfl, hP⟩
  have hexec : (onPull x).exec (s, st) = (Except.ok a, (s', st)) := by
    change ((x s).1, (x s).2, st) = _
    rw [show x s = _ from hx]
  rw [hexec]
  refine ⟨fun b t ht => ?_, fun e t ht => by cases ht⟩
  cases ht
  exact ⟨rfl, rfl, hP⟩

omit [Values V] in
theorem onHandoff_triple {α : Type} {x : Handoff V α} {P E : Streaming V → Prop}
    {Q : α → Streaming V → Prop} (h : Triple P x Q E) (s : σ) :
    Triple (fun t => t.1 = s ∧ P t.2) (onHandoff x) (fun a t => t.1 = s ∧ Q a t.2)
      (fun t => E t.2) := by
  rintro ⟨s', st⟩ ⟨rfl, hP⟩
  obtain ⟨hok, herr⟩ := h st hP
  cases hx : x.exec st with
  | mk r st' =>
      have hexec : (onHandoff x).exec (s', st) = (r, (s', st')) := by
        change ((x st).1, s', (x st).2) = _
        rw [show x st = _ from hx]
      rw [hexec]
      refine ⟨fun a t ht => ?_, fun e t ht => ?_⟩ <;> cases ht
      · exact ⟨rfl, hok a st' hx⟩
      · exact herr e st' hx

/-- The loop hands over what the buffered loop gathers. -/
theorem streamLoop_triple (hsize : 0 < size) {p : Pull σ γ V} {fuel : ℕ} {s s' : σ}
    {buf rows kept : List (Row V)} (hdrain : (drain p fuel).exec s = (.ok rows, s'))
    (hkept : batchRows eval post (buf ++ rows) = .ok kept) :
    Triple (fun t => t.1 = s ∧ Fed sink size skip limit xs t.2)
      (streamLoop p eval post sink size fuel buf)
      (fun _ t => Finished sink size (window skip limit (xs ++ kept.map Row.values)) t.2)
      (fun t => Cut sink size (window skip limit (xs ++ kept.map Row.values)) t.2) := by
  induction fuel generalizing s buf rows kept xs with
  | zero => cases hdrain
  | succ fuel ih =>
      obtain ⟨more, s₁, hnext, hdrain⟩ := exec_bind_ok hdrain
      refine (onPull_triple hnext).bind fun b => ?_
      cases more with
      | false =>
          cases hdrain
          rw [List.append_nil] at hkept
          rintro t ⟨rfl, ht⟩
          refine Triple.ite (P := fun t => t.1 = s' ∧ Fed sink size skip limit xs t.2)
            (fun hbuf => Triple.pure fun t ht => ?_) (fun _ => ?_) t ht
          · rw [List.isEmpty_iff.1 hbuf] at hkept
            rw [batchRows_nil hkept, List.map_nil, List.append_nil]
            exact ht.2.finished
          · refine Triple.bind (onHandoff_triple (streamBatch_triple hsize hkept) s') fun _ =>
              Triple.pure fun t ht => ?_
            rcases ht.2 with ⟨-, hfed⟩ | ⟨-, hover⟩
            · exact hfed.finished
            · have hdone := hover []
              rwa [List.append_nil] at hdone
      | true =>
          obtain ⟨chunk, s₂, hemit, hdrain⟩ := exec_bind_ok hdrain
          obtain ⟨rest, s₃, hrest, hdrain⟩ := exec_bind_ok hdrain
          cases hdrain
          rw [← List.append_assoc] at hkept
          obtain ⟨ka, kb, hka, hkb, rfl⟩ := batchRows_append hkept
          have hwhole : xs ++ (ka ++ kb).map Row.values =
              xs ++ ka.map Row.values ++ kb.map Row.values := by
            rw [List.map_append, List.append_assoc]
          rintro t ⟨rfl, ht⟩
          refine Triple.bind (P := fun t => t.1 = s₁ ∧ Fed sink size skip limit xs t.2)
            (onPull_triple hemit) (fun got => ?_) t ht
          rintro t ⟨rfl, ht⟩
          refine Triple.bind (P := fun t => t.1 = s₂ ∧ Fed sink size skip limit xs t.2)
            ((onHandoff_triple (drainBatches_triple hsize _ hka) s₂).weaken (fun _ h => h)
              (fun _ _ h => h) fun t ht => ?_) (fun r => ?_) t ht
          · rw [hwhole]
            exact ht.mono (window_initial _ _ _ _)
          rintro t ⟨ht, hr⟩
          rcases hr with ⟨left, k₁, k₂, rfl, hleft, rfl, hfed⟩ | ⟨rfl, hover⟩
          · have hgo := @ih (xs ++ k₁.map Row.values) _ _ _ _ hrest
              (batchRows_append_ok hleft hkb)
            have hsame : xs ++ k₁.map Row.values ++ (k₂ ++ kb).map Row.values =
                xs ++ (k₁ ++ k₂ ++ kb).map Row.values := by
              simp only [List.map_append, List.append_assoc]
            rw [hsame] at hgo
            exact hgo t ⟨ht, hfed⟩
          · refine Triple.pure (P := fun t => t.1 = s₂ ∧
              Over sink size skip limit (xs ++ ka.map Row.values) t.2)
              (fun t ht => ?_) t ⟨ht, hover⟩
            rw [hwhole]
            exact ht.2 _

end

end Zu.Query
