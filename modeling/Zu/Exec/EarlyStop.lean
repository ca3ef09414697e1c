import Zu.Exec.Morsels
import Zu.Lib.Run

/-!
# Early stop

Workers claim the morsels in order and finish them in any. What is finished without a gap from
the first on is the prefix, and once it has the rows a limit asks for every worker stops at its
next chunk. What a worker emits after that is put in its place all the same, behind the rows
that answer.
-/

namespace Zu.Exec

open Lib

variable {ρ : Type}

/-- `PostSpec`: a window over the rows, or a step over all of them. -/
inductive PostSpec (ρ : Type)
  | whole (step : List ρ → List ρ)
  | skip (n : ℕ)
  | limit (n : ℕ)

def applyPost : List (PostSpec ρ) → List ρ → List ρ
  | [], rows => rows
  | .whole step :: post, rows => applyPost post (step rows)
  | .skip n :: post, rows => applyPost post (rows.drop n)
  | .limit n :: post, rows => applyPost post (rows.take n)

/-- `quota_of`, from what the steps before have asked for. -/
def quotaFrom : ℕ → Option ℕ → List (PostSpec ρ) → Option ℕ
  | skip, limit, [] => limit.map fun n => min (skip + n) (2 ^ 64 - 1)
  | _, _, .whole _ :: _ => none
  | _, limit, .skip n :: post => quotaFrom n limit post
  | skip, _, .limit n :: post => quotaFrom skip (some n) post

def quotaOf (post : List (PostSpec ρ)) : Option ℕ := quotaFrom 0 none post

/-- The steps of one clause, in the order the plan puts them: a dedup, an ordering, and a
slice. -/
def clausePost (distinct sort : Option (List ρ → List ρ)) (skip limit : Option ℕ) :
    List (PostSpec ρ) :=
  (distinct.map PostSpec.whole).toList ++ (sort.map PostSpec.whole).toList ++
    (skip.map PostSpec.skip).toList ++ (limit.map PostSpec.limit).toList

structure Progress where
  counts : List (Option ℕ)
  prefixLen : ℕ
  prefixRows : ℕ

/-- The prefix goes on over what is finished. It has no more turns than there are morsels. -/
def Progress.advance (counts : List (Option ℕ)) : ℕ → ℕ → ℕ → Progress
  | 0, len, rows => ⟨counts, len, rows⟩
  | turns + 1, len, rows =>
      match counts[len]? with
      | some (some n) => advance counts turns (len + 1) (rows + n)
      | _ => ⟨counts, len, rows⟩

/-- What `morsel_done` leaves of the progress, where a quota is asked for. -/
def Progress.done (p : Progress) (m rows : ℕ) : Progress :=
  advance (p.counts.set m (some rows)) p.counts.length p.prefixLen p.prefixRows

/-- A worker: between two morsels, with a morsel it has yet to look for a stop over, running
one, with the rows it has emitted and the chunks left, or leaving it. -/
inductive Worker (ρ : Type)
  | idle
  | claimed (m : ℕ)
  | running (m : ℕ) (rows : List ρ) (rest : List (Option (List ρ)))
  | leaving (m : ℕ) (rows : List ρ)
  | returned

/-- A run of the morsels: the next one to claim, the stop flag, the flag of the caller, what is
finished, the batches, the workers, and whether one of them raised. -/
structure Drive (ρ : Type) where
  claim : ℕ
  stop : Bool
  asked : Bool
  progress : Progress
  batches : List (ℕ × List ρ)
  workers : List (Worker ρ)
  failed : Bool

def Drive.stopped (d : Drive ρ) : Bool := d.stop || d.asked

/-- What a worker does next. A look at the flags may come before a change of theirs is seen. A
chunk is emitted whole where no stop is seen under it, and where one is the walk under it ends
at any row. -/
inductive Move (ρ : Type)
  | claim
  | look (seen : Bool)
  | chunk
  | drain (extra : List ρ)
  | quota
  | finish
  | done

def quotaMet (needed : Option ℕ) (p : Progress) (m rows : ℕ) : Bool :=
  needed.any fun needed => p.prefixLen = m && needed ≤ p.prefixRows + rows

def Drive.morselDone (needed : Option ℕ) (m rows : ℕ) (d : Drive ρ) : Drive ρ :=
  match needed with
  | none => d
  | some needed =>
      let progress := d.progress.done m rows
      { d with progress := progress, stop := d.stop || decide (needed ≤ progress.prefixRows) }

variable (needed : Option ℕ) (chunks : List (List (Option (List ρ))))

/-- `work` and `run_morsel`. `chunks` are the rows of each morsel, chunk by chunk, and a chunk
that raises has none. -/
def Drive.turn (d : Drive ρ) : Worker ρ → Move ρ → Option (Drive ρ × Worker ρ)
  | .idle, .claim =>
      some ({ d with claim := d.claim + 1 },
        if d.claim < chunks.length then .claimed d.claim else .returned)
  | .claimed m, .look seen =>
      if seen then if d.stopped then some (d, .returned) else none
      else some (d, .running m [] ((chunks[m]?).getD []))
  | .running m rows (some part :: rest), .chunk => some (d, .running m (rows ++ part) rest)
  | .running _ _ (none :: _), .chunk => some ({ d with stop := true, failed := true }, .returned)
  | .running m rows _, .drain extra =>
      if d.stopped then some (d, .leaving m (rows ++ extra)) else none
  | .running m rows _, .quota =>
      if quotaMet needed d.progress m rows.length then some (d, .leaving m rows) else none
  | .running m rows [], .finish => some (d, .leaving m rows)
  | .leaving m rows, .done =>
      some ({ d with batches := d.batches ++ [(m, rows)] }.morselDone needed m rows.length, .idle)
  | _, _ => none

/-- What happens next: the caller asks for a stop, or a worker moves. -/
inductive Act (ρ : Type)
  | interrupt
  | move (worker : ℕ) (move : Move ρ)

def Drive.step (d : Drive ρ) : Act ρ → Option (Drive ρ)
  | .interrupt => some { d with asked := true }
  | .move w move => do
      let k ← d.workers[w]?
      let (after, k) ← d.turn needed chunks k move
      return { after with workers := d.workers.set w k }

/-- The start of `drive`, with so many workers. -/
def Drive.start (workers : ℕ) : Drive ρ :=
  ⟨0, false, false, ⟨List.replicate chunks.length none, 0, 0⟩, [],
    List.replicate workers .idle, false⟩

/-- Every worker has returned. -/
def Drive.ended (d : Drive ρ) : Prop := ∀ k ∈ d.workers, k = .returned

def Drive.stitched (d : Drive ρ) : List ρ :=
  (d.batches.mergeSort fun a b => decide (a.1 ≤ b.1)).flatMap Prod.snd

/-- What `run` answers: an error where a worker raised or the caller asked for a stop. -/
def Drive.answer (post : List (PostSpec ρ)) (d : Drive ρ) : Option (List ρ) :=
  if d.failed || d.asked then none else some (applyPost post d.stitched)

/-- The rows that one worker emits that goes on until a chunk raises. -/
def rowsOf : List (Option (List ρ)) → List ρ
  | some part :: rest => part ++ rowsOf rest
  | _ => []

/-- The rows of all morsels, in order. -/
def seqRows : List ρ := rowsOf chunks.flatten

/-! ### What is finished without a gap -/

/-- The first `len` morsels are finished, with so many rows together. -/
def Covered (counts : List (Option ℕ)) (len rows : ℕ) : Prop :=
  ∃ ns : List ℕ, counts.take len = ns.map some ∧ ns.length = len ∧ ns.sum = rows

theorem Covered.start (counts : List (Option ℕ)) : Covered counts 0 0 := ⟨[], rfl, rfl, rfl⟩

theorem Covered.next {counts : List (Option ℕ)} {len rows n : ℕ} (h : Covered counts len rows)
    (hn : counts[len]? = some (some n)) : Covered counts (len + 1) (rows + n) := by
  obtain ⟨ns, htake, hlen, hsum⟩ := h
  refine ⟨ns ++ [n], ?_, ?_, ?_⟩
  · rw [List.take_add_one, htake, hn, List.map_append]
    rfl
  · rw [List.length_append, hlen]
    rfl
  · rw [List.sum_append, hsum, List.sum_singleton]

theorem Covered.le {counts : List (Option ℕ)} {len rows m : ℕ} (h : Covered counts len rows)
    (hm : counts[m]? = some none) : len ≤ m := by
  obtain ⟨ns, htake, -, -⟩ := h
  by_contra hlt
  have hget : (counts.take len)[m]? = some none := by
    rw [List.getElem?_take_of_lt (Nat.lt_of_not_le hlt), hm]
  rw [htake, List.getElem?_map] at hget
  cases hn : ns[m]? with
  | none => simp [hn] at hget
  | some n => simp [hn] at hget

theorem Covered.set {counts : List (Option ℕ)} {len rows m : ℕ} (h : Covered counts len rows)
    (hm : counts[m]? = some none) (n : ℕ) : Covered (counts.set m (some n)) len rows := by
  have hle := h.le hm
  obtain ⟨ns, htake, hlen, hsum⟩ := h
  exact ⟨ns, by rw [List.take_set_of_le hle, htake], hlen, hsum⟩

theorem Progress.advance_covered {counts : List (Option ℕ)} (turns : ℕ) {len rows : ℕ}
    (h : Covered counts len rows) :
    (advance counts turns len rows).counts = counts ∧
      Covered counts (advance counts turns len rows).prefixLen
        (advance counts turns len rows).prefixRows := by
  induction turns generalizing len rows with
  | zero => exact ⟨rfl, h⟩
  | succ turns ih =>
      rw [advance]
      split
      · rename_i n hn
        exact ih (h.next hn)
      · exact ⟨rfl, h⟩

theorem Progress.le_advance (counts : List (Option ℕ)) (turns len rows : ℕ) :
    rows ≤ (advance counts turns len rows).prefixRows := by
  induction turns generalizing len rows with
  | zero => exact Nat.le_refl _
  | succ turns ih =>
      rw [advance]
      split
      · exact (Nat.le_add_right _ _).trans (ih _ _)
      · exact Nat.le_refl _

/-! ### The invariant of a run -/

def Worker.holds : Worker ρ → Option ℕ
  | .claimed m | .running m _ _ | .leaving m _ => some m
  | .idle | .returned => none

/-- The morsels that are with a worker or in a batch. -/
def Drive.held (d : Drive ρ) : List ℕ :=
  d.workers.filterMap Worker.holds ++ d.batches.map Prod.fst

/-- What is covered up to a morsel is enough. -/
def Enough (counts : List (Option ℕ)) (m : ℕ) : Prop :=
  ∃ q ∈ needed, ∃ len rows, len ≤ m ∧ Covered counts len rows ∧ q ≤ rows

def chunksOf (m : ℕ) : List (Option (List ρ)) := (chunks[m]?).getD []

/-- What a worker leaves of a morsel: all its rows, or some of them where those and what is
covered before are enough. What it leaves where enough is covered already is of no matter. -/
inductive Fits (d : Drive ρ) (m : ℕ) (rows : List ρ) : Prop
  | whole {parts : List (List ρ)} (hparts : chunksOf chunks m = parts.map some)
      (hrows : rows = parts.flatten)
  | ending (h : d.failed = true ∨ d.asked = true)
  | enough (h : Enough needed d.progress.counts m)
  | quota {parts : List (List ρ)} {rest : List (Option (List ρ))} {q before : ℕ}
      (hparts : chunksOf chunks m = parts.map some ++ rest) (hrows : rows = parts.flatten)
      (hq : q ∈ needed) (hbefore : Covered d.progress.counts m before)
      (henough : q ≤ before + rows.length)

/-- The run has no use for what is left. -/
def Spent (d : Drive ρ) : Prop :=
  d.failed = true ∨ d.asked = true ∨ Enough needed d.progress.counts chunks.length

/-- What a worker has done is right so far. -/
def WorkerOk (d : Drive ρ) : Worker ρ → Prop
  | .idle | .claimed _ => True
  | .running m rows rest =>
      ∃ parts : List (List ρ), chunksOf chunks m = parts.map some ++ rest ∧ rows = parts.flatten
  | .leaving m rows => Fits needed chunks d m rows
  | .returned => chunks.length ≤ d.claim ∨ Spent needed chunks d

/-- The invariant of a run. -/
structure Inv (d : Drive ρ) : Prop where
  length : d.progress.counts.length = chunks.length
  covered : Covered d.progress.counts d.progress.prefixLen d.progress.prefixRows
  stop_why : d.stop = true → d.failed = true ∨ ∃ q ∈ needed, q ≤ d.progress.prefixRows
  distinct : d.held.Nodup
  inside : ∀ m ∈ d.held, m < d.claim ∧ m < chunks.length
  unfinished : ∀ m < chunks.length, m ∉ d.batches.map Prod.fst → d.progress.counts[m]? = some none
  counted : ∀ b ∈ d.batches, ∀ q ∈ needed, d.progress.counts[b.1]? = some (some b.2.length)
  fits : ∀ b ∈ d.batches, Fits needed chunks d b.1 b.2
  workers_ok : ∀ k ∈ d.workers, WorkerOk needed chunks d k
  accounted : ∀ m < chunks.length, m < d.claim → m ∈ d.held ∨ Spent needed chunks d

/-- A later state of a run. -/
structure Later (d d' : Drive ρ) : Prop where
  claim : d.claim ≤ d'.claim
  failed : d.failed = true → d'.failed = true
  asked : d.asked = true → d'.asked = true
  covered : ∀ len rows, Covered d.progress.counts len rows → Covered d'.progress.counts len rows

section

variable {needed chunks} {d d' : Drive ρ}

theorem Enough.mono {counts counts' : List (Option ℕ)} {m m' : ℕ}
    (h : Enough needed counts m) (hle : m ≤ m')
    (hcovered : ∀ len rows, Covered counts len rows → Covered counts' len rows) :
    Enough needed counts' m' := by
  obtain ⟨q, hq, len, rows, hlen, hrows, henough⟩ := h
  exact ⟨q, hq, len, rows, hlen.trans hle, hcovered len rows hrows, henough⟩

theorem Fits.mono {m : ℕ} {rows : List ρ} (h : Fits needed chunks d m rows) (hlater : Later d d') :
    Fits needed chunks d' m rows := by
  cases h with
  | whole hparts hrows => exact .whole hparts hrows
  | ending h => exact .ending (h.imp hlater.failed hlater.asked)
  | enough h => exact .enough (h.mono (Nat.le_refl m) hlater.covered)
  | quota hparts hrows hq hbefore henough =>
      exact .quota hparts hrows hq (hlater.covered _ _ hbefore) henough

theorem Spent.mono (h : Spent needed chunks d) (hlater : Later d d') : Spent needed chunks d' :=
  h.imp hlater.failed (Or.imp hlater.asked fun h => h.mono (Nat.le_refl _) hlater.covered)

theorem WorkerOk.mono {k : Worker ρ} (h : WorkerOk needed chunks d k) (hlater : Later d d') :
    WorkerOk needed chunks d' k := by
  cases k with
  | idle => trivial
  | claimed m => trivial
  | running m rows rest => exact h
  | leaving m rows => exact Fits.mono h hlater
  | returned => exact Or.imp (fun h => h.trans hlater.claim) (fun h => h.mono hlater) h

/-- A flag that is up says why there is no more to do. -/
theorem Inv.stopped (h : Inv needed chunks d) (hstop : d.stopped = true) :
    d.failed = true ∨ d.asked = true ∨ ∃ q ∈ needed, q ≤ d.progress.prefixRows := by
  rcases Bool.or_eq_true_iff.1 hstop with hstop | hasked
  · exact (h.stop_why hstop).imp_right Or.inr
  · exact Or.inr (Or.inl hasked)

theorem Inv.prefixLen_le (h : Inv needed chunks d) : d.progress.prefixLen ≤ chunks.length := by
  obtain ⟨ns, htake, hlen, -⟩ := h.covered
  have hle := congrArg List.length htake
  rw [List.length_take, List.length_map, hlen, h.length] at hle
  omega

theorem Inv.spent (h : Inv needed chunks d) (hstop : d.stopped = true) :
    Spent needed chunks d := by
  rcases h.stopped hstop with hfailed | hasked | ⟨q, hq, hle⟩
  · exact Or.inl hfailed
  · exact Or.inr (Or.inl hasked)
  · exact Or.inr (Or.inr ⟨q, hq, _, _, h.prefixLen_le, h.covered, hle⟩)

/-- What a worker leaves after it has seen a stop is of no matter. -/
theorem Inv.drained (h : Inv needed chunks d) (hstop : d.stopped = true) {m : ℕ}
    (hm : d.progress.counts[m]? = some none) (rows : List ρ) : Fits needed chunks d m rows := by
  rcases h.stopped hstop with hfailed | hasked | ⟨q, hq, hle⟩
  · exact .ending (Or.inl hfailed)
  · exact .ending (Or.inr hasked)
  · exact .enough ⟨q, hq, _, _, h.covered.le hm, h.covered, hle⟩

theorem held_split {before after : List (Worker ρ)} {k : Worker ρ}
    (hworkers : d.workers = before ++ k :: after) :
    d.held.Perm (k.holds.toList ++ ((before ++ after).filterMap Worker.holds ++
      d.batches.map Prod.fst)) := by
  have hone : (k :: after).filterMap Worker.holds =
      k.holds.toList ++ after.filterMap Worker.holds := by
    rw [List.filterMap_cons]
    cases k.holds <;> rfl
  rw [Drive.held, hworkers, List.filterMap_append, hone, List.filterMap_append, ← List.append_assoc,
    ← List.append_assoc, ← List.append_assoc]
  exact (List.perm_append_comm.append_right _).append_right _

theorem Inv.open_of_holds (h : Inv needed chunks d) {before after : List (Worker ρ)}
    {k : Worker ρ} (hworkers : d.workers = before ++ k :: after) {m : ℕ}
    (hm : k.holds = some m) : d.progress.counts[m]? = some none ∧ m < chunks.length := by
  have hperm := held_split hworkers
  rw [hm] at hperm
  have hmem : m ∈ d.held := hperm.mem_iff.2 (List.mem_append_left _ (by simp))
  have hnodup := hperm.nodup_iff.1 h.distinct
  have hout : m ∉ d.batches.map Prod.fst := by
    intro hin
    exact List.disjoint_of_nodup_append hnodup (by simp) (List.mem_append_right _ hin)
  exact ⟨h.unfinished m (h.inside m hmem).2 hout, (h.inside m hmem).2⟩

/-- What a move does with the morsel of its worker, where no morsel is finished: it stays, is
given up, or is a new one. -/
inductive Passes (d d' : Drive ρ) (k k' : Worker ρ) : Prop
  | keeps (hclaim : d'.claim = d.claim) (hholds : k'.holds = k.holds)
  | drops (hclaim : d'.claim = d.claim) (hholds : k'.holds = none) (hspent : Spent needed chunks d')
  | claims (hclaim : d'.claim = d.claim + 1) (hidle : k.holds = none)
      (hholds : k'.holds = some d.claim) (hlt : d.claim < chunks.length)
  | ends (hclaim : d'.claim = d.claim + 1) (hidle : k.holds = none) (hholds : k'.holds = none)
      (hge : chunks.length ≤ d.claim)

theorem Inv.pass {before after : List (Worker ρ)} {k k' : Worker ρ} (h : Inv needed chunks d)
    (hworkers : d.workers = before ++ k :: after) (hworkers' : d'.workers = before ++ k' :: after)
    (hbatches : d'.batches = d.batches) (hprogress : d'.progress = d.progress)
    (hfailed : d.failed = true → d'.failed = true) (hasked : d.asked = true → d'.asked = true)
    (hstop : d'.stop = true → d'.failed = true ∨ ∃ q ∈ needed, q ≤ d'.progress.prefixRows)
    (hok : WorkerOk needed chunks d' k') (hpass : @Passes _ needed chunks d d' k k') :
    Inv needed chunks d' := by
  have hclaim : d.claim ≤ d'.claim := by
    cases hpass <;> omega
  have hlater : Later d d' := ⟨hclaim, hfailed, hasked, fun len rows hc => hprogress ▸ hc⟩
  have hperm := held_split hworkers
  have hperm' := held_split hworkers'
  rw [hbatches] at hperm'
  generalize (before ++ after).filterMap Worker.holds ++ d.batches.map Prod.fst = others
    at hperm hperm'
  have hothers : others.Nodup := (hperm.nodup_iff.1 h.distinct).of_append_right
  have hmem : ∀ m ∈ others, m ∈ d.held := fun m hm =>
    hperm.mem_iff.2 (List.mem_append_right _ hm)
  have hmem' : ∀ m ∈ others, m ∈ d'.held := fun m hm =>
    hperm'.mem_iff.2 (List.mem_append_right _ hm)
  have haccounted : ∀ m < chunks.length, m < d.claim → m ∈ d.held ∨ Spent needed chunks d' :=
    fun m hm hlt => (h.accounted m hm hlt).imp_right fun h => h.mono hlater
  have hheld : d'.held.Nodup ∧ (∀ m ∈ d'.held, m < d'.claim ∧ m < chunks.length) ∧
      ∀ m < chunks.length, m < d'.claim → m ∈ d'.held ∨ Spent needed chunks d' := by
    cases hpass with
    | keeps hclaim hholds =>
        rw [hholds] at hperm'
        have hsame := hperm'.trans hperm.symm
        refine ⟨hsame.nodup_iff.2 h.distinct, fun m hm => ?_, fun m hm hlt => ?_⟩
        · rw [hclaim]
          exact h.inside m (hsame.mem_iff.1 hm)
        · rw [hclaim] at hlt
          exact (haccounted m hm hlt).imp_left hsame.mem_iff.2
    | drops hclaim hholds hspent =>
        rw [hholds] at hperm'
        refine ⟨hperm'.nodup_iff.2 hothers, fun m hm => ?_, fun m hm hlt => Or.inr hspent⟩
        rw [hclaim]
        exact h.inside m (hmem m (hperm'.mem_iff.1 hm))
    | claims hclaim hidle hholds hlt =>
        rw [hidle] at hperm
        rw [hholds] at hperm'
        refine ⟨hperm'.nodup_iff.2 (List.nodup_cons.2 ⟨fun hin => ?_, hothers⟩), fun m hm => ?_,
          fun m hm hlt' => ?_⟩
        · exact Nat.lt_irrefl _ (h.inside _ (hmem _ hin)).1
        · rw [hclaim]
          rcases List.mem_cons.1 (hperm'.mem_iff.1 hm) with rfl | hin
          · exact ⟨Nat.lt_succ_self _, hlt⟩
          · exact ⟨(h.inside m (hmem m hin)).1.trans (Nat.lt_succ_self _), (h.inside m (hmem m hin)).2⟩
        · rw [hclaim] at hlt'
          rcases (Nat.lt_succ_iff_lt_or_eq.1 hlt') with hless | rfl
          · exact (haccounted m hm hless).imp_left fun hin => hmem' m (hperm.mem_iff.1 hin)
          · exact Or.inl (hperm'.mem_iff.2 List.mem_cons_self)
    | ends hclaim hidle hholds hge =>
        rw [hidle] at hperm
        rw [hholds] at hperm'
        have hsame := hperm'.trans hperm.symm
        refine ⟨hsame.nodup_iff.2 h.distinct, fun m hm => ?_, fun m hm hlt => ?_⟩
        · rw [hclaim]
          have hin := h.inside m (hsame.mem_iff.1 hm)
          exact ⟨hin.1.trans (Nat.lt_succ_self _), hin.2⟩
        · exact (haccounted m hm (hm.trans_le hge)).imp_left hsame.mem_iff.2
  refine ⟨?_, ?_, hstop, hheld.1, hheld.2.1, ?_, ?_, ?_, ?_, hheld.2.2⟩
  · rw [hprogress]
    exact h.length
  · rw [hprogress]
    exact h.covered
  · rw [hprogress, hbatches]
    exact h.unfinished
  · rw [hprogress, hbatches]
    exact h.counted
  · rw [hbatches]
    intro b hb
    exact (h.fits b hb).mono hlater
  · rw [hworkers']
    intro j hj
    rcases List.mem_append.1 hj with hj | hj
    · exact (h.workers_ok j (by simp [hworkers, hj])).mono hlater
    · rcases List.mem_cons.1 hj with rfl | hj
      · exact hok
      · exact (h.workers_ok j (by simp [hworkers, hj])).mono hlater

theorem morselDone_spec {m : ℕ} (rows : ℕ) (h : Inv needed chunks d)
    (hm : d.progress.counts[m]? = some none) :
    (d.morselDone needed m rows).progress.counts.length = chunks.length ∧
      Covered (d.morselDone needed m rows).progress.counts
        (d.morselDone needed m rows).progress.prefixLen
        (d.morselDone needed m rows).progress.prefixRows ∧
      ((d.morselDone needed m rows).stop = true → d.failed = true ∨
        ∃ q ∈ needed, q ≤ (d.morselDone needed m rows).progress.prefixRows) ∧
      ∀ j, (d.morselDone needed m rows).progress.counts[j]? =
        if needed.isSome ∧ j = m then some (some rows) else d.progress.counts[j]? := by
  cases needed with
  | none => exact ⟨h.length, h.covered, h.stop_why, fun j => by simp [Drive.morselDone]⟩
  | some q =>
      have hlt : m < d.progress.counts.length := by
        by_contra hge
        rw [List.getElem?_eq_none (Nat.le_of_not_lt hge)] at hm
        exact nomatch hm
      obtain ⟨hcounts, hcovered⟩ := Progress.advance_covered d.progress.counts.length
        (h.covered.set hm rows)
      have hle := Progress.le_advance (d.progress.counts.set m (some rows))
        d.progress.counts.length d.progress.prefixLen d.progress.prefixRows
      refine ⟨?_, ?_, fun hstop => ?_, fun j => ?_⟩
      · show (Progress.done d.progress m rows).counts.length = _
        rw [Progress.done, hcounts, List.length_set, h.length]
      · show Covered (Progress.done d.progress m rows).counts _ _
        rw [Progress.done, hcounts]
        exact hcovered
      · rcases Bool.or_eq_true_iff.1 hstop with hstop | henough
        · refine (h.stop_why hstop).imp_right ?_
          rintro ⟨q', hq', hle'⟩
          exact ⟨q', hq', hle'.trans hle⟩
        · exact Or.inr ⟨q, rfl, of_decide_eq_true henough⟩
      · show (Progress.done d.progress m rows).counts[j]? = _
        rw [Progress.done, hcounts, List.getElem?_set]
        by_cases hj : m = j
        · subst hj
          simp [hlt]
        · simp [hj, Ne.symm hj]

theorem Inv.finished {before after : List (Worker ρ)} {m : ℕ} {rows : List ρ}
    (h : Inv needed chunks d) (hworkers : d.workers = before ++ .leaving m rows :: after)
    (hprogress : d'.progress = (d.morselDone needed m rows.length).progress)
    (hstop : d'.stop = (d.morselDone needed m rows.length).stop)
    (hbatches : d'.batches = d.batches ++ [(m, rows)])
    (hworkers' : d'.workers = before ++ .idle :: after) (hclaim : d'.claim = d.claim)
    (hfailed : d'.failed = d.failed) (hasked : d'.asked = d.asked) : Inv needed chunks d' := by
  obtain ⟨hopen, hm⟩ := h.open_of_holds hworkers (m := m) rfl
  obtain ⟨hlen, hcovered, hwhy, hcounts⟩ := morselDone_spec rows.length h hopen
  rw [← hprogress] at hlen hcovered hwhy hcounts
  have hlater : Later d d' := by
    refine ⟨hclaim.ge, fun h => hfailed ▸ h, fun h => hasked ▸ h, fun len n hc => ?_⟩
    have hle := hc.le hopen
    obtain ⟨ns, htake, hns, hsum⟩ := hc
    refine ⟨ns, ?_, hns, hsum⟩
    rw [← htake]
    apply List.ext_getElem?
    intro j
    by_cases hj : j < len
    · have hne : ¬ (needed.isSome = true ∧ j = m) := by
        rintro ⟨-, rfl⟩
        exact Nat.lt_irrefl j (hj.trans_le hle)
      rw [List.getElem?_take_of_lt hj, List.getElem?_take_of_lt hj, hcounts, if_neg hne]
    · rw [List.getElem?_take_eq_none (Nat.le_of_not_lt hj),
        List.getElem?_take_eq_none (Nat.le_of_not_lt hj)]
  have hperm := held_split hworkers
  have hperm' := held_split hworkers'
  have hsame : d'.held.Perm d.held := by
    apply hperm'.trans (List.Perm.trans _ hperm.symm)
    show ((before ++ after).filterMap Worker.holds ++ d'.batches.map Prod.fst).Perm (m :: _)
    rw [hbatches, List.map_append, ← List.append_assoc]
    exact List.perm_append_singleton m _
  have hleft : Fits needed chunks d m rows := h.workers_ok (.leaving m rows) (by simp [hworkers])
  refine ⟨hlen, hcovered, fun h => hfailed ▸ hwhy (hstop ▸ h), hsame.nodup_iff.2 h.distinct,
    fun j hj => hclaim ▸ h.inside j (hsame.mem_iff.1 hj), ?_, ?_, ?_, ?_, ?_⟩
  · intro j hj hout
    rw [hbatches, List.map_append, List.mem_append, not_or] at hout
    rw [hcounts, if_neg fun heq => hout.2 (by simp [heq.2])]
    exact h.unfinished j hj hout.1
  · intro b hb q hq
    rw [hbatches, List.mem_append, List.mem_singleton] at hb
    rw [hcounts]
    rcases hb with hb | rfl
    · have hne : b.1 ≠ m := by
        rintro rfl
        have hcount := h.counted b hb q hq
        rw [hopen] at hcount
        exact nomatch hcount
      rw [if_neg fun heq => hne heq.2]
      exact h.counted b hb q hq
    · rw [if_pos ⟨Option.isSome_of_mem hq, rfl⟩]
  · intro b hb
    rw [hbatches, List.mem_append, List.mem_singleton] at hb
    rcases hb with hb | rfl
    · exact (h.fits b hb).mono hlater
    · exact hleft.mono hlater
  · rw [hworkers']
    intro j hj
    rcases List.mem_append.1 hj with hj | hj
    · exact (h.workers_ok j (by simp [hworkers, hj])).mono hlater
    · rcases List.mem_cons.1 hj with rfl | hj
      · trivial
      · exact (h.workers_ok j (by simp [hworkers, hj])).mono hlater
  · intro j hj hlt
    rw [hclaim] at hlt
    exact (h.accounted j hj hlt).imp hsame.mem_iff.2 fun h => h.mono hlater

/-- What a worker's move does to the run and to the worker. -/
theorem Inv.turn {before after : List (Worker ρ)} {k k' : Worker ρ} {move : Move ρ}
    (h : Inv needed chunks d) (hworkers : d.workers = before ++ k :: after)
    (hturn : d.turn needed chunks k move = some (d', k')) :
    Inv needed chunks { d' with workers := before ++ k' :: after } := by
  have hok := h.workers_ok k (by simp [hworkers])
  cases k with
  | idle =>
      cases move with
      | claim =>
          cases hturn
          by_cases hlt : d.claim < chunks.length
          · rw [if_pos hlt]
            exact h.pass hworkers rfl rfl rfl id id h.stop_why trivial
              (.claims rfl rfl rfl hlt)
          · rw [if_neg hlt]
            exact h.pass hworkers rfl rfl rfl id id h.stop_why
              (Or.inl ((Nat.le_of_not_lt hlt).trans (Nat.le_succ _)))
              (.ends rfl rfl rfl (Nat.le_of_not_lt hlt))
      | look seen => exact nomatch hturn
      | chunk => exact nomatch hturn
      | drain extra => exact nomatch hturn
      | quota => exact nomatch hturn
      | finish => exact nomatch hturn
      | done => exact nomatch hturn
  | claimed m =>
      cases move with
      | look seen =>
          cases seen with
          | true =>
              rw [Drive.turn, if_pos rfl, Option.ite_none_right_eq_some] at hturn
              obtain ⟨hstop, hturn⟩ := hturn
              cases hturn
              have hspent := h.spent hstop
              exact h.pass hworkers rfl rfl rfl id id h.stop_why (Or.inr hspent)
                (.drops rfl rfl hspent)
          | false =>
              cases hturn
              exact h.pass hworkers rfl rfl rfl id id h.stop_why ⟨[], rfl, rfl⟩ (.keeps rfl rfl)
      | claim => exact nomatch hturn
      | chunk => exact nomatch hturn
      | drain extra => exact nomatch hturn
      | quota => exact nomatch hturn
      | finish => exact nomatch hturn
      | done => exact nomatch hturn
  | running m rows rest =>
      obtain ⟨hopen, -⟩ := h.open_of_holds hworkers (m := m) rfl
      obtain ⟨parts, hparts, rfl⟩ := hok
      cases move with
      | chunk =>
          cases rest with
          | nil => exact nomatch hturn
          | cons part rest =>
              cases part with
              | none =>
                  cases hturn
                  exact h.pass hworkers rfl rfl rfl (fun _ => rfl) id (fun _ => Or.inl rfl)
                    (Or.inr (Or.inl rfl)) (.drops rfl rfl (Or.inl rfl))
              | some part =>
                  cases hturn
                  refine h.pass hworkers rfl rfl rfl id id h.stop_why ⟨parts ++ [part], ?_, ?_⟩
                    (.keeps rfl rfl)
                  · rw [hparts, List.map_append, List.append_assoc]
                    rfl
                  · rw [List.flatten_append, List.flatten_singleton]
      | drain extra =>
          rw [Drive.turn, Option.ite_none_right_eq_some] at hturn
          obtain ⟨hstop, hturn⟩ := hturn
          cases hturn
          have hfits := h.drained hstop hopen (parts.flatten ++ extra)
          exact h.pass hworkers rfl rfl rfl id id h.stop_why
            (hfits.mono ⟨Nat.le_refl _, id, id, fun _ _ hc => hc⟩) (.keeps rfl rfl)
      | quota =>
          rw [Drive.turn, Option.ite_none_right_eq_some] at hturn
          obtain ⟨hmet, hturn⟩ := hturn
          cases hturn
          obtain ⟨q, hq, hmet⟩ := (Option.any_eq_true _ _).1 hmet
          rw [Bool.and_eq_true, decide_eq_true_eq, decide_eq_true_eq] at hmet
          have hcovered := h.covered
          rw [hmet.1] at hcovered
          exact h.pass hworkers rfl rfl rfl id id h.stop_why
            (Fits.quota hparts rfl hq hcovered hmet.2) (.keeps rfl rfl)
      | finish =>
          cases rest with
          | nil =>
              cases hturn
              rw [List.append_nil] at hparts
              exact h.pass hworkers rfl rfl rfl id id h.stop_why (Fits.whole hparts rfl)
                (.keeps rfl rfl)
          | cons part rest => simp [Drive.turn] at hturn
      | claim => simp [Drive.turn] at hturn
      | look seen => simp [Drive.turn] at hturn
      | done => simp [Drive.turn] at hturn
  | leaving m rows =>
      cases move with
      | done =>
          cases hturn
          cases needed with
          | none => exact h.finished hworkers rfl rfl rfl rfl rfl rfl rfl
          | some q => exact h.finished hworkers rfl rfl rfl rfl rfl rfl rfl
      | claim => exact nomatch hturn
      | look seen => exact nomatch hturn
      | chunk => exact nomatch hturn
      | drain extra => exact nomatch hturn
      | quota => exact nomatch hturn
      | finish => exact nomatch hturn
  | returned =>
      cases move <;> exact nomatch hturn

theorem Inv.step {act : Act ρ} (h : Inv needed chunks d)
    (hstep : d.step needed chunks act = some d') : Inv needed chunks d' := by
  cases act with
  | interrupt =>
      cases hstep
      have hlater : Later d { d with asked := true } :=
        ⟨Nat.le_refl _, id, fun _ => rfl, fun _ _ hc => hc⟩
      exact ⟨h.length, h.covered, h.stop_why, h.distinct, h.inside, h.unfinished, h.counted,
        fun b hb => (h.fits b hb).mono hlater, fun k hk => (h.workers_ok k hk).mono hlater,
        fun m hm hlt => (h.accounted m hm hlt).imp_right fun h => h.mono hlater⟩
  | move w move =>
      obtain ⟨k, hk, hrest⟩ := Option.bind_eq_some_iff.1 hstep
      obtain ⟨⟨d₁, k₁⟩, hturn, heq⟩ := Option.bind_eq_some_iff.1 hrest
      cases heq
      obtain ⟨hw, hval⟩ := List.getElem?_eq_some_iff.1 hk
      obtain ⟨before, after, hsplit, -, hset⟩ := @List.exists_of_set _ w k₁ _ hw
      rw [hval] at hsplit
      rw [hset]
      exact h.turn hsplit hturn

theorem step_workers {act : Act ρ} (hstep : d.step needed chunks act = some d') :
    d'.workers.length = d.workers.length := by
  cases act with
  | interrupt =>
      cases hstep
      rfl
  | move w move =>
      obtain ⟨k, -, hrest⟩ := Option.bind_eq_some_iff.1 hstep
      obtain ⟨⟨d₁, k₁⟩, -, heq⟩ := Option.bind_eq_some_iff.1 hrest
      cases heq
      exact List.length_set

theorem start_held (chunks : List (List (Option (List ρ)))) (workers : ℕ) :
    (Drive.start chunks workers).held = [] := by
  have hidle : ∀ k ∈ List.replicate workers (Worker.idle : Worker ρ), k.holds = none := by
    intro k hk
    cases List.eq_of_mem_replicate hk
    rfl
  rw [Drive.held, Drive.start, List.map_nil, List.append_nil]
  exact List.filterMap_eq_nil_iff.2 hidle

theorem start_inv (workers : ℕ) : Inv needed chunks (Drive.start chunks workers) where
  length := List.length_replicate
  covered := Covered.start _
  stop_why := fun h => nomatch h
  distinct := start_held chunks workers ▸ List.nodup_nil
  inside := fun m hm => nomatch (start_held chunks workers ▸ hm)
  unfinished := by
    intro m hm _
    simp [Drive.start, hm]
  counted := fun b hb => nomatch hb
  fits := fun b hb => nomatch hb
  workers_ok := by
    intro k hk
    cases List.eq_of_mem_replicate hk
    trivial
  accounted := fun m _ hlt => absurd hlt (Nat.not_lt_zero m)

theorem run_inv {workers : ℕ}
    (h : Run (Drive.step needed chunks) anyAction (Drive.start chunks workers) d) :
    Inv needed chunks d :=
  h.invariant (fun _ _ _ h _ hstep => h.step hstep) (start_inv workers)

/-! ### What a run answers -/

def batchAt (batches : List (ℕ × List ρ)) (m : ℕ) : List ρ :=
  ((batches.find? fun b => b.1 = m).map Prod.snd).getD []

theorem find_batch {batches : List (ℕ × List ρ)} (hnodup : (batches.map Prod.fst).Nodup)
    {b : ℕ × List ρ} (hb : b ∈ batches) : batches.find? (fun c => c.1 = b.1) = some b := by
  induction batches with
  | nil => exact nomatch hb
  | cons c batches ih =>
      rw [List.map_cons, List.nodup_cons] at hnodup
      rcases List.mem_cons.1 hb with rfl | hb
      · exact List.find?_cons_of_pos (by simp)
      · have hne : c.1 ≠ b.1 := fun heq => hnodup.1 (heq ▸ List.mem_map_of_mem hb)
        rw [List.find?_cons_of_neg (by simpa using hne)]
        exact ih hnodup.2 hb

theorem batchAt_eq {batches : List (ℕ × List ρ)} (hnodup : (batches.map Prod.fst).Nodup)
    {m : ℕ} {rows : List ρ} (hb : (m, rows) ∈ batches) : batchAt batches m = rows := by
  rw [batchAt, find_batch hnodup hb]
  rfl

/-- The batches come out by their morsels, whatever order they were made in. -/
theorem stitched_eq (hnodup : (d.batches.map Prod.fst).Nodup) {n : ℕ}
    (hlt : ∀ m ∈ d.batches.map Prod.fst, m < n) :
    d.stitched = (List.range n).flatMap (batchAt d.batches) := by
  have hsorted : (d.batches.mergeSort fun a b => decide (a.1 ≤ b.1)) =
      (List.range n).filterMap fun m => d.batches.find? fun b => b.1 = m := by
    have hfst : ∀ {m : ℕ} {b : ℕ × List ρ}, d.batches.find? (fun b => b.1 = m) = some b →
        b.1 = m := by
      intro m b hfind
      simpa using List.find?_some hfind
    have hperm : (d.batches.mergeSort fun a b => decide (a.1 ≤ b.1)).Perm d.batches :=
      List.mergeSort_perm _ _
    have hrange : ((List.range n).filterMap fun m => d.batches.find? fun b => b.1 = m).Pairwise
        fun a b => a.1 < b.1 := by
      rw [List.pairwise_filterMap]
      apply List.pairwise_lt_range.imp
      intro i j hij b hb c hc
      rw [hfst hb, hfst hc]
      exact hij
    have hsort : (d.batches.mergeSort fun a b => decide (a.1 ≤ b.1)).Pairwise
        fun a b => a.1 < b.1 := by
      have hle : (d.batches.mergeSort fun a b => decide (a.1 ≤ b.1)).Pairwise
          fun a b => decide (a.1 ≤ b.1) = true :=
        List.pairwise_mergeSort (fun a b c hab hbc => by
          simp only [decide_eq_true_eq] at hab hbc ⊢
          exact hab.trans hbc) (fun a b => by simpa using Nat.le_total a.1 b.1) _
      have hne : (d.batches.mergeSort fun a b => decide (a.1 ≤ b.1)).Pairwise
          fun a b => a.1 ≠ b.1 := by
        have hnodup' := (hperm.map Prod.fst).nodup_iff.2 hnodup
        rwa [List.Nodup, List.pairwise_map] at hnodup'
      exact hle.imp₂ (fun a b hle hne => Nat.lt_of_le_of_ne (by simpa using hle) hne) hne
    apply List.Perm.eq_of_pairwise (fun a b _ _ hab hba => absurd hba (Nat.lt_asymm hab)) hsort
      hrange
    have hdistinct : ((List.range n).filterMap fun m =>
        d.batches.find? fun b => b.1 = m).Nodup := by
      apply hrange.imp
      rintro a b hlt rfl
      exact Nat.lt_irrefl _ hlt
    apply hperm.trans
    rw [List.perm_ext_iff_of_nodup (List.Nodup.of_map _ hnodup) hdistinct]
    intro b
    rw [List.mem_filterMap]
    constructor
    · intro hb
      exact ⟨b.1, List.mem_range.2 (hlt _ (List.mem_map_of_mem hb)), find_batch hnodup hb⟩
    · rintro ⟨m, -, hfind⟩
      exact List.mem_of_find?_eq_some hfind
  rw [Drive.stitched, hsorted]
  induction List.range n with
  | nil => rfl
  | cons m ms ih =>
      rw [List.filterMap_cons, List.flatMap_cons, batchAt]
      cases d.batches.find? fun b => b.1 = m with
      | none => exact ih
      | some b =>
          rw [List.flatMap_cons, ih]
          rfl

@[simp] theorem rowsOf_nil : rowsOf ([] : List (Option (List ρ))) = [] := rfl

theorem rowsOf_append (parts : List (List ρ)) (rest : List (Option (List ρ))) :
    rowsOf (parts.map some ++ rest) = parts.flatten ++ rowsOf rest := by
  induction parts with
  | nil => rfl
  | cons part parts ih =>
      rw [List.map_cons, List.cons_append, rowsOf, ih, List.flatten_cons, List.append_assoc]

theorem seqRows_whole {rows : ℕ → List ρ} {k : ℕ} (hk : k ≤ chunks.length)
    (hwhole : ∀ m < k, ∃ parts : List (List ρ), chunksOf chunks m = parts.map some ∧
      rows m = parts.flatten) :
    seqRows chunks = (List.range k).flatMap rows ++ rowsOf (chunks.drop k).flatten := by
  induction k with
  | zero => rfl
  | succ k ih =>
      obtain ⟨parts, hparts, hrows⟩ := hwhole k (Nat.lt_succ_self k)
      have hget : chunks.drop k = parts.map some :: chunks.drop (k + 1) := by
        rw [List.drop_eq_getElem_cons hk]
        rw [chunksOf, List.getElem?_eq_getElem hk] at hparts
        exact congrArg (· :: chunks.drop (k + 1)) hparts
      rw [ih (Nat.le_of_succ_le hk) fun m hm => hwhole m (hm.trans (Nat.lt_succ_self k)), hget,
        List.flatten_cons, rowsOf_append, List.range_succ, List.flatMap_append,
        List.flatMap_singleton, hrows, List.append_assoc]

theorem Inv.covered_rows (h : Inv needed chunks d) {q : ℕ} (hq : q ∈ needed) {len rows : ℕ}
    (hcovered : Covered d.progress.counts len rows) (hlen : len ≤ chunks.length) :
    rows = ((List.range len).flatMap (batchAt d.batches)).length := by
  have hnodup : (d.batches.map Prod.fst).Nodup := h.distinct.of_append_right
  induction len generalizing rows with
  | zero =>
      obtain ⟨ns, -, hns, rfl⟩ := hcovered
      rw [List.length_eq_zero_iff.1 hns]
      rfl
  | succ len ih =>
      obtain ⟨ns, htake, hns, rfl⟩ := hcovered
      obtain ⟨ns', n, rfl⟩ : ∃ ns' n, ns = ns' ++ [n] := by
        have hne : ns ≠ [] := by
          rintro rfl
          exact nomatch hns
        exact ⟨_, _, (List.dropLast_append_getLast hne).symm⟩
      have hget : d.progress.counts[len]? = some (some n) := by
        have hlast := congrArg (·[len]?) htake
        have hlen' : ns'.length = len := by simpa using hns
        simpa [List.getElem?_take_of_lt, hlen'] using hlast
      have hfront : Covered d.progress.counts len ns'.sum := by
        refine ⟨ns', ?_, by simpa using hns, rfl⟩
        have hcut := congrArg (List.take len) htake
        have hlen' : ns'.length = len := by simpa using hns
        rw [List.take_take, Nat.min_eq_left (Nat.le_succ len), List.map_append,
          List.take_append_of_le_length (by simp [hlen'])] at hcut
        rw [hcut, List.take_of_length_le (by simp [hlen'])]
      obtain ⟨b, hb, rfl⟩ : ∃ b ∈ d.batches, b.1 = len := by
        by_contra hnone
        have hopen := h.unfinished len hlen fun hin => by
          obtain ⟨b, hb, heq⟩ := List.mem_map.1 hin
          exact hnone ⟨b, hb, heq⟩
        rw [hget] at hopen
        exact nomatch hopen
      have hcount := h.counted b hb q hq
      rw [hget] at hcount
      cases hcount
      rw [List.range_succ, List.flatMap_append, List.length_append,
        ← ih hfront (Nat.le_of_succ_le hlen), List.flatMap_singleton, batchAt_eq hnodup hb,
        List.sum_append, List.sum_singleton]

/-- A run that ends without an error has the rows of one worker, or agrees with them on as many
as are asked for. -/
theorem Inv.stitched (h : Inv needed chunks d) (hended : d.ended) (hsome : d.workers ≠ [])
    (hfailed : d.failed = false) (hasked : d.asked = false) :
    d.stitched = seqRows chunks ∨ ∃ q ∈ needed, ∃ common rest rest' : List ρ,
      d.stitched = common ++ rest ∧ seqRows chunks = common ++ rest' ∧ q ≤ common.length := by
  have hnodup : (d.batches.map Prod.fst).Nodup := h.distinct.of_append_right
  have hnone : d.workers.filterMap Worker.holds = [] := by
    rw [List.filterMap_eq_nil_iff]
    intro k hk
    rw [hended k hk]
    rfl
  have hheld : d.held = d.batches.map Prod.fst := by
    rw [Drive.held, hnone, List.nil_append]
  have hlt : ∀ m ∈ d.batches.map Prod.fst, m < chunks.length :=
    fun m hm => (h.inside m (hheld ▸ hm)).2
  have hover : ¬ (d.failed = true ∨ d.asked = true) := by
    rw [hfailed, hasked]
    simp
  have hspent : Spent needed chunks d → Enough needed d.progress.counts chunks.length := by
    rintro (hf | ha | henough)
    · exact absurd (Or.inl hf) hover
    · exact absurd (Or.inr ha) hover
    · exact henough
  -- the workers have returned because no morsel is left, or because enough is covered
  have hall : (∀ m < chunks.length, m ∈ d.batches.map Prod.fst) ∨
      Enough needed d.progress.counts chunks.length := by
    obtain ⟨k, hk⟩ := List.exists_mem_of_ne_nil _ hsome
    have hok := h.workers_ok k hk
    rw [hended k hk] at hok
    rcases hok with hclaim | hok
    · by_cases henough : Enough needed d.progress.counts chunks.length
      · exact Or.inr henough
      · refine Or.inl fun m hm => ?_
        rcases h.accounted m hm (hm.trans_le hclaim) with hin | hs
        · exact hheld ▸ hin
        · exact absurd (hspent hs) henough
    · exact Or.inr (hspent hok)
  let whole : ℕ → Prop := fun m => ∃ parts : List (List ρ), chunksOf chunks m = parts.map some ∧
    batchAt d.batches m = parts.flatten
  rw [stitched_eq hnodup hlt]
  by_cases hwhole : ∀ m < chunks.length, whole m
  · left
    rw [seqRows_whole (Nat.le_refl _) hwhole, List.drop_length, List.flatten_nil, rowsOf_nil,
      List.append_nil]
  · right
    classical
    have hbad : ∃ m, m < chunks.length ∧ ¬ whole m := by
      push Not at hwhole
      exact hwhole
    obtain ⟨hk, hnot⟩ := Nat.find_spec hbad
    have hbefore : ∀ m < Nat.find hbad, whole m := by
      intro m hm
      by_contra hnot'
      exact Nat.find_min hbad hm ⟨hm.trans hk, hnot'⟩
    generalize Nat.find hbad = k at hk hnot hbefore
    have hseq := seqRows_whole (Nat.le_of_lt hk) hbefore
    obtain ⟨j, hj⟩ := Nat.exists_eq_add_of_lt hk
    have hrange : List.range chunks.length =
        List.range k ++ k :: (List.range j).map (k + 1 + ·) := by
      rw [hj, Nat.add_right_comm, List.range_add, List.range_succ, List.append_assoc]
      rfl
    -- enough is covered before the first morsel that is not whole
    have henough : Enough needed d.progress.counts k → ∃ q ∈ needed, ∃ common rest rest' : List ρ,
        (List.range chunks.length).flatMap (batchAt d.batches) = common ++ rest ∧
          seqRows chunks = common ++ rest' ∧ q ≤ common.length := by
      rintro ⟨q, hq, len, rows, hlen, hcovered, hle⟩
      refine ⟨q, hq, (List.range k).flatMap (batchAt d.batches),
        (k :: (List.range j).map (k + 1 + ·)).flatMap (batchAt d.batches), _, ?_, hseq, ?_⟩
      · rw [hrange, List.flatMap_append]
      · have hrows := h.covered_rows hq hcovered (hlen.trans (Nat.le_of_lt hk))
        have hpart : (List.range k).flatMap (batchAt d.batches) =
            (List.range len).flatMap (batchAt d.batches) ++
              ((List.range (k - len)).map (len + ·)).flatMap (batchAt d.batches) := by
          rw [← List.flatMap_append, ← List.range_add, Nat.add_sub_cancel' hlen]
        rw [hpart, List.length_append, ← hrows]
        omega
    by_cases hin : k ∈ d.batches.map Prod.fst
    · obtain ⟨b, hb, rfl⟩ := List.mem_map.1 hin
      have hrows := batchAt_eq hnodup hb
      cases h.fits b hb with
      | whole hparts hflat => exact absurd ⟨_, hparts, hrows.trans hflat⟩ hnot
      | ending ho => exact absurd ho hover
      | enough he => exact henough he
      | @quota parts rest q before hparts hflat hq hcovered hle =>
          have hget : chunks.drop b.1 = (parts.map some ++ rest) :: chunks.drop (b.1 + 1) := by
            rw [List.drop_eq_getElem_cons hk]
            rw [chunksOf, List.getElem?_eq_getElem hk] at hparts
            exact congrArg (· :: chunks.drop (b.1 + 1)) hparts
          refine ⟨q, hq, (List.range b.1).flatMap (batchAt d.batches) ++ b.2,
            ((List.range j).map (b.1 + 1 + ·)).flatMap (batchAt d.batches),
            rowsOf (rest ++ (chunks.drop (b.1 + 1)).flatten), ?_, ?_, ?_⟩
          · rw [hrange, List.flatMap_append, List.flatMap_cons, hrows, ← List.append_assoc]
          · rw [hseq, hget, List.flatten_cons, List.append_assoc, rowsOf_append, ← hflat,
              ← List.append_assoc]
          · rw [List.length_append, ← h.covered_rows hq hcovered (Nat.le_of_lt hk)]
            exact hle
    · rcases hall with hall | hall
      · exact absurd (hall k hk) hin
      · obtain ⟨q, hq, len, rows, -, hcovered, hle⟩ := hall
        exact henough ⟨q, hq, len, rows, hcovered.le (h.unfinished k hk hin), hcovered, hle⟩

end

/-- A window asks for no more rows than its quota. -/
theorem applyPost_congr {distinct sort : Option (List ρ → List ρ)} {skip limit : Option ℕ} {q : ℕ}
    (hq : quotaOf (clausePost distinct sort skip limit) = some q) {common rest rest' : List ρ}
    (hle : q ≤ common.length) (hfit : common.length < 2 ^ 64 - 1) :
    applyPost (clausePost distinct sort skip limit) (common ++ rest) =
      applyPost (clausePost distinct sort skip limit) (common ++ rest') := by
  have htake : ∀ {n : ℕ}, n ≤ common.length →
      (common ++ rest).take n = (common ++ rest').take n := by
    intro n hn
    rw [List.take_append_of_le_length hn, List.take_append_of_le_length hn]
  cases distinct with
  | some f => exact nomatch hq
  | none =>
      cases sort with
      | some f => exact nomatch hq
      | none =>
          cases limit with
          | none =>
              cases skip with
              | none => exact nomatch hq
              | some s => exact nomatch hq
          | some n =>
              cases skip with
              | none =>
                  have hmin : min (0 + n) (2 ^ 64 - 1) = q := Option.some.inj hq
                  exact htake (by omega)
              | some s =>
                  have hmin : min (s + n) (2 ^ 64 - 1) = q := Option.some.inj hq
                  show ((common ++ rest).drop s).take n = ((common ++ rest').drop s).take n
                  rw [List.take_drop, List.take_drop, htake (by omega)]

/-- Whatever order the workers claim and finish the morsels in, a run that ends without an
error answers what one worker does that goes on to the end. -/
theorem run_answers {workers : ℕ} (hworkers : 0 < workers)
    {distinct sort : Option (List ρ → List ρ)} {skip limit : Option ℕ} {d : Drive ρ}
    (hfit : (seqRows chunks).length < 2 ^ 64 - 1)
    (hrun : Run (Drive.step (quotaOf (clausePost distinct sort skip limit)) chunks) anyAction
      (Drive.start chunks workers) d)
    (hended : d.ended) {rows : List ρ}
    (hanswer : d.answer (clausePost distinct sort skip limit) = some rows) :
    rows = applyPost (clausePost distinct sort skip limit) (seqRows chunks) := by
  have hinv := run_inv hrun
  let many : Drive ρ → Prop := fun d => d.workers.length = workers
  have hmany : many (Drive.start chunks workers) := List.length_replicate
  have hcount : many d := by
    refine hrun.invariant (fun d act d' hd _ hstep => ?_) hmany
    exact (step_workers hstep).trans hd
  have hsome : d.workers ≠ [] := List.ne_nil_of_length_pos (hcount ▸ hworkers)
  rw [Drive.answer] at hanswer
  split at hanswer
  · exact nomatch hanswer
  · rename_i hclean
    rw [Bool.or_eq_true, not_or, Bool.not_eq_true, Bool.not_eq_true] at hclean
    cases hanswer
    rcases hinv.stitched hended hsome hclean.1 hclean.2 with hsame |
      ⟨q, hq, common, rest, rest', hleft, hright, hle⟩
    · rw [hsame]
    · rw [hleft, hright]
      rw [hright, List.length_append] at hfit
      exact applyPost_congr hq hle (by omega)

/-- The morsels of a scan, a seek and a batch cover each row, key and neighbour once and in
order, where the counts and their sums are counted in words; and whatever order the workers
claim and finish morsels in, an early stop changes no answer. -/
theorem morsels_exact (checks : Bool) {parallel threads : ℕ} (hparallel : parallel * 32 < 2 ^ 64)
    (hthreads : threads * 32 < 2 ^ 64) :
    (∀ (rows : ℕ) (intersects : Bool) (keys : List ℕ), rows + groupRows ≤ 2 ^ 64 →
      ∃ s, scanWork checks rows intersects parallel threads = .ok s ∧
        (s.items rows keys).flatten = (List.range rows).map .row) ∧
    (∀ (snap : Snapshot) (hop : Option Hop) (key rows : ℕ) (keys : List ℕ),
      (∀ h ∈ hop, ∀ seed ∈ snap.seekKey key, (snap.weights h seed).sum < 2 ^ 64) →
      ∃ s, seekWork checks snap hop parallel threads key = .ok s ∧
        ((s.items rows keys).flatten = [.seed (snap.seekKey key)] ∨
          ∃ seed, snap.seekKey key = some seed ∧
            (s.items rows keys).flatten = (snap.list seed).map (.neighbour none seed))) ∧
    (∀ (snap : Snapshot) (hop : Option Hop) (keys : List ℕ) (weigh : Bool) (rows : ℕ),
      keys.length + groupRows ≤ 2 ^ 64 →
      ((keys.map snap.weigh).map WeighedKey.weight).sum < 2 ^ 64 →
      (∀ row, (snap.list row).length < 2 ^ 60) →
      ∃ s, seeksWork checks snap hop parallel threads keys weigh = .ok s ∧
        ((s.items rows keys).flatten = keys.map .key ∨
          (s.items rows keys).flatten = keys.flatMap (snap.cutItems
            (share snap (if threads = 0 then parallel else threads) keys)))) ∧
    ∀ (ρ : Type) (chunks : List (List (Option (List ρ)))) (workers : ℕ)
      (distinct sort : Option (List ρ → List ρ)) (skip limit : Option ℕ) (d : Drive ρ)
      (rows : List ρ), 0 < workers → (seqRows chunks).length < 2 ^ 64 - 1 →
      Run (Drive.step (quotaOf (clausePost distinct sort skip limit)) chunks) anyAction
        (Drive.start chunks workers) d → d.ended →
      d.answer (clausePost distinct sort skip limit) = some rows →
      rows = applyPost (clausePost distinct sort skip limit) (seqRows chunks) := by
  refine ⟨fun rows intersects keys hrows => ?_, fun snap hop key rows keys hweights => ?_,
    fun snap hop keys weigh rows hkeys hfit hlists => ?_,
    fun ρ chunks workers distinct sort skip limit d rows hworkers hfit hrun hended hanswer => ?_⟩
  · exact scanWork_covers checks intersects keys hrows hparallel hthreads
  · exact seekWork_covers checks snap hop (by omega) (by omega) hweights rows keys
  · exact seeksWork_covers checks snap hop weigh hparallel hthreads hkeys hfit hlists rows
  · exact run_answers chunks hworkers hfit hrun hended hanswer

theorem morsels_exact_eight : ∃ s, scanWork true 300000 false 8 0 = .ok s ∧
    (s.items 300000 []).flatten = (List.range 300000).map .row :=
  (@morsels_exact true 8 0 (by decide) (by decide)).1 300000 false []
    (by decide)

/-- Thirty-two times this many threads are no morsels at all. -/
theorem makeMorsels_threads_panics : ¬ ∀ (checks intersects : Bool) (rows parallel threads : ℕ),
    ∃ s, scanWork checks rows intersects parallel threads = .ok s ∧
      (s.items rows []).flatten = (List.range rows).map .row := by
  intro h
  obtain ⟨s, hs, -⟩ := h false false 1 8 (2 ^ 59)
  exact nomatch hs

end Zu.Exec
