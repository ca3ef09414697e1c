import Zu.Query.VarLength

/-!
# Reached endpoints

Where a stage keeps the set of the ends and throws the paths away, a variable-length step
walks each node once instead of once a path. A node enters the walk at the fewest hops that
reach it; the start is marked before the walk moves and is put out when it is met again.
-/

namespace Zu.Query

namespace Reach

open Lib Lib.Walks

variable {ε : Type} (g : Graph) (spec : VarSpec ε)

/-- What `reach_nodes` writes: the rows it has been to, whether the start has been dealt
with, the ends, and the rows the next round walks from. -/
structure Reached where
  seen : Finset NodeAt
  startAgain : Bool
  far : List NodeAt
  next : List NodeAt

/-- What `reach_nodes` does with an edge, at so many hops. -/
def Reached.visit (start : NodeAt) (depth : ℕ) (st : Reached) (hop : Hop) : Timed ε Reached :=
  if (hop.2 = start ∧ st.startAgain) ∨ (hop.2 ≠ start ∧ hop.2 ∈ st.seen) then
    return st
  else do
    let passes ← Timed.of (spec.gate hop.1)
    if !passes then
      return st
    else if hop.2 = start then
      return if spec.min ≤ depth then { st with startAgain := true, far := st.far ++ [hop.2] }
        else st
    else
      return { st with
        seen := insert hop.2 st.seen
        next := st.next ++ [hop.2]
        far := if spec.min ≤ depth ∧ hop.2.1 ∈ spec.toTables then st.far ++ [hop.2] else st.far }

/-- A round: every edge of every node of the frontier, one hop further out. -/
def Reached.round (start : NodeAt) (depth : ℕ) (st : Reached) : Timed ε Reached :=
  (st.next.flatMap (allHops g spec.rels spec.direction)).foldlM (Reached.visit spec start depth)
    { st with next := [] }

/-- The rounds, until the frontier is empty or the hops are used up. They are cut off after so
many. -/
def reachFrom (start : NodeAt) : ℕ → ℕ → Reached → Timed ε (List NodeAt)
  | 0, _, _ => Timed.cut
  | turns + 1, depth, st =>
      if st.next.isEmpty || spec.full depth then
        return st.far
      else do
        let st ← st.round g spec start (depth + 1)
        reachFrom start turns (depth + 1) st

def Reached.init (start : NodeAt) : Reached where
  seen := {start}
  startAgain := decide (spec.mode = .acyclic ∨ start.1 ∉ spec.toTables ∨ spec.min = 0)
  far := if spec.min = 0 ∧ start.1 ∈ spec.toTables then [start] else []
  next := [start]

def reachNodes (start : NodeAt) (turns : ℕ) : Timed ε (List NodeAt) :=
  reachFrom g spec start turns 0 (Reached.init spec start)

/-- What `rewrite_reach_varlen` does with one expand, where the slots that are read are
given. -/
def rewriteReach (refs : Finset ℕ) (op : VarExpand ε) : VarExpand ε :=
  if op.min ≤ 1 ∧ op.selector = none ∧ op.target = none ∧ op.relSlot ∉ refs then
    { op with reach := true }
  else op

/-- `rewrite_reach_varlen`, where it is given whether the stage answers a set and whether a
bracket is in it. -/
def rewriteReachVarlen (aSet bracketed : Bool) (refs : Finset ℕ) (ops : List (VarExpand ε)) :
    List (VarExpand ε) :=
  if !aSet || bracketed then ops else ops.map (rewriteReach refs)

/-! ### A round -/

section

variable {g spec} {start : NodeAt} {st₀ : Reached}

/-- A node is met over an edge that passes. -/
def Met (spec : VarSpec ε) (hops : List Hop) (v : NodeAt) : Prop :=
  ∃ hop ∈ hops, passes spec.gate hop.1 = true ∧ hop.2 = v

theorem met_nil {v : NodeAt} : ¬ Met spec [] v := by
  simp [Met]

theorem met_snoc {hops : List Hop} {hop : Hop} {v : NodeAt} :
    Met spec (hops ++ [hop]) v ↔ Met spec hops v ∨ (passes spec.gate hop.1 = true ∧ hop.2 = v) := by
  simp only [Met, List.mem_append, List.mem_singleton]
  constructor
  · rintro ⟨hop', hmem | rfl, h⟩
    · exact Or.inl ⟨hop', hmem, h⟩
    · exact Or.inr h
  · rintro (⟨hop', hmem, h⟩ | h)
    · exact ⟨hop', Or.inl hmem, h⟩
    · exact ⟨hop, Or.inr rfl, h⟩

/-- What a round has made of the edges it has looked at. -/
structure Spread (spec : VarSpec ε) (start : NodeAt) (st₀ : Reached) (hops : List Hop)
    (st : Reached) : Prop where
  seen : ∀ v, v ∈ st.seen ↔ v ∈ st₀.seen ∨ Met spec hops v
  next : ∀ v, v ∈ st.next ↔ v ∉ st₀.seen ∧ Met spec hops v
  far : ∀ v, v ≠ start → (v ∈ st.far ↔
    v ∈ st₀.far ∨ (v ∉ st₀.seen ∧ Met spec hops v ∧ v.1 ∈ spec.toTables))
  back : start ∈ st.far ↔ start ∈ st₀.far ∨ (st₀.startAgain = false ∧ Met spec hops start)
  again : st.startAgain = true ↔ st₀.startAgain = true ∨ Met spec hops start

theorem Spread.init : Spread spec start st₀ [] { st₀ with next := [] } where
  seen v := by simp [met_nil]
  next v := by simp [met_nil]
  far v hv := by simp [met_nil]
  back := by simp [met_nil]
  again := by simp [met_nil]

/-- An edge that leads nowhere new changes nothing. -/
theorem Spread.skip {hops : List Hop} {hop : Hop} {st : Reached}
    (h : Spread spec start st₀ hops st) (hstart : start ∈ st₀.seen)
    (hskip : (hop.2 = start ∧ st.startAgain = true) ∨ (hop.2 ≠ start ∧ hop.2 ∈ st.seen) ∨
      passes spec.gate hop.1 = false) : Spread spec start st₀ (hops ++ [hop]) st := by
  have hsame : ∀ v, v ∉ st₀.seen → (Met spec (hops ++ [hop]) v ↔ Met spec hops v) := by
    intro v hv
    rw [met_snoc]
    refine ⟨fun hmet => hmet.elim id ?_, Or.inl⟩
    rintro ⟨hpass, rfl⟩
    obtain ⟨heq, -⟩ | ⟨-, hmem⟩ | hfail := hskip
    · exact absurd (heq ▸ hstart) hv
    · exact ((h.seen _).1 hmem).resolve_left hv
    · exact absurd hpass (by simp [hfail])
  have hagain : st₀.startAgain = true ∨ (Met spec (hops ++ [hop]) start ↔ Met spec hops start) := by
    by_cases hgiven : st₀.startAgain = true
    · exact Or.inl hgiven
    · right
      rw [met_snoc]
      refine ⟨fun hmet => hmet.elim id ?_, Or.inl⟩
      rintro ⟨hpass, heq⟩
      obtain ⟨-, hset⟩ | ⟨hne, -⟩ | hfail := hskip
      · exact (h.again.1 hset).resolve_left hgiven
      · exact absurd heq hne
      · exact absurd hpass (by simp [hfail])
  constructor
  · intro v
    rw [h.seen v]
    by_cases hv : v ∈ st₀.seen
    · simp [hv]
    · rw [hsame v hv]
  · intro v
    rw [h.next v]
    exact and_congr_right fun hv => (hsame v hv).symm
  · intro v hne
    rw [h.far v hne]
    refine or_congr_right (and_congr_right fun hv => ?_)
    rw [hsame v hv]
  · rw [h.back]
    obtain hgiven | hiff := hagain
    · simp [hgiven]
    · rw [hiff]
  · rw [h.again]
    obtain hgiven | hiff := hagain
    · simp [hgiven]
    · rw [hiff]

/-- An edge back to the start puts it out. -/
theorem Spread.close {hops : List Hop} {hop : Hop} {st : Reached}
    (h : Spread spec start st₀ hops st) (hstart : start ∈ st₀.seen)
    (hpass : passes spec.gate hop.1 = true) (heq : hop.2 = start) (hagain : st.startAgain = false) :
    Spread spec start st₀ (hops ++ [hop])
      { st with startAgain := true, far := st.far ++ [hop.2] } := by
  have hmet : Met spec (hops ++ [hop]) start := met_snoc.2 (Or.inr ⟨hpass, heq⟩)
  have hsame : ∀ v, v ≠ start → (Met spec (hops ++ [hop]) v ↔ Met spec hops v) := by
    intro v hv
    rw [met_snoc]
    refine ⟨fun h => h.elim id ?_, Or.inl⟩
    rintro ⟨-, rfl⟩
    exact absurd heq hv
  have hgiven : st₀.startAgain = false := by
    rw [← Bool.not_eq_true]
    intro hset
    rw [h.again.2 (Or.inl hset)] at hagain
    exact absurd hagain Bool.true_eq_false_eq_False
  constructor
  · intro v
    rw [h.seen v]
    by_cases hv : v = start
    · subst hv
      simp [hstart]
    · rw [hsame v hv]
  · intro v
    rw [h.next v]
    by_cases hv : v = start
    · subst hv
      simp [hstart]
    · rw [hsame v hv]
  · intro v hv
    rw [List.mem_append, List.mem_singleton, h.far v hv, hsame v hv]
    simp [heq, hv]
  · simp [heq, hmet, hgiven]
  · simp [hmet]

theorem Spread.enter {hops : List Hop} {hop : Hop} {st : Reached}
    (h : Spread spec start st₀ hops st) (hpass : passes spec.gate hop.1 = true)
    (hne : hop.2 ≠ start) (hnew : hop.2 ∉ st.seen) {depth : ℕ} (hdepth : spec.min ≤ depth) :
    Spread spec start st₀ (hops ++ [hop]) { st with
      seen := insert hop.2 st.seen
      next := st.next ++ [hop.2]
      far := if spec.min ≤ depth ∧ hop.2.1 ∈ spec.toTables then st.far ++ [hop.2]
        else st.far } := by
  have hseen : hop.2 ∉ st₀.seen := fun hmem => hnew ((h.seen _).2 (Or.inl hmem))
  have hmet : ∀ v, Met spec (hops ++ [hop]) v ↔ Met spec hops v ∨ v = hop.2 := by
    intro v
    rw [met_snoc]
    simp [hpass, eq_comm]
  have hstart : Met spec (hops ++ [hop]) start ↔ Met spec hops start := by
    rw [hmet]
    simp [Ne.symm hne]
  constructor
  · intro v
    rw [Finset.mem_insert, h.seen v, hmet]
    tauto
  · intro v
    rw [List.mem_append, List.mem_singleton, h.next v, hmet]
    constructor
    · rintro (⟨hv, hm⟩ | rfl)
      · exact ⟨hv, Or.inl hm⟩
      · exact ⟨hseen, Or.inr rfl⟩
    · rintro ⟨hv, hm | rfl⟩
      · exact Or.inl ⟨hv, hm⟩
      · exact Or.inr rfl
  · intro v hv
    rw [hmet]
    by_cases hto : hop.2.1 ∈ spec.toTables
    · rw [if_pos ⟨hdepth, hto⟩, List.mem_append, List.mem_singleton, h.far v hv]
      constructor
      · rintro ((hold | ⟨h1, h2, h3⟩) | rfl)
        · exact Or.inl hold
        · exact Or.inr ⟨h1, Or.inl h2, h3⟩
        · exact Or.inr ⟨hseen, Or.inr rfl, hto⟩
      · rintro (hold | ⟨h1, h2 | rfl, h3⟩)
        · exact Or.inl (Or.inl hold)
        · exact Or.inl (Or.inr ⟨h1, h2, h3⟩)
        · exact Or.inr rfl
    · rw [if_neg (fun hboth => hto hboth.2), h.far v hv]
      refine or_congr_right (and_congr_right fun _ => ?_)
      constructor
      · rintro ⟨h2, h3⟩
        exact ⟨Or.inl h2, h3⟩
      · rintro ⟨h2 | rfl, h3⟩
        · exact ⟨h2, h3⟩
        · exact absurd h3 hto
  · rw [hstart, ← h.back]
    split
    · rw [List.mem_append, List.mem_singleton]
      exact ⟨fun hm => hm.resolve_right (Ne.symm hne), Or.inl⟩
    · exact Iff.rfl
  · rw [hstart, ← h.again]

theorem visit_settles {hops : List Hop} {hop : Hop} {st : Reached} {depth : ℕ}
    (h : Spread spec start st₀ hops st) (hstart : start ∈ st₀.seen) (hdepth : spec.min ≤ depth) :
    Settles (st.visit spec start depth hop) (¬ ∃ b, spec.gate hop.1 = .ok b)
      (Spread spec start st₀ (hops ++ [hop])) := by
  rw [Reached.visit]
  split
  case isTrue hskip =>
    apply Settles.pure
    exact h.skip hstart (hskip.imp id Or.inl)
  case isFalse hask =>
    rw [not_or, not_and, not_and, Bool.not_eq_true] at hask
    have hgate : Settles (Timed.of (spec.gate hop.1)) (¬ ∃ b, spec.gate hop.1 = .ok b)
        fun b => spec.gate hop.1 = .ok b := by
      apply Settles.of (fun b hb => hb)
      rintro e he ⟨b, hb⟩
      rw [he] at hb
      cases hb
    apply hgate.bind
    intro b hb
    have hpasses : passes spec.gate hop.1 = b := by
      rw [passes, hb]
    cases b with
    | false =>
        apply Settles.pure
        exact h.skip hstart (Or.inr (Or.inr hpasses))
    | true =>
        by_cases heq : hop.2 = start
        · rw [if_neg (by simp), if_pos heq]
          exact Settles.pure (h.close hstart hpasses heq (hask.1 heq))
        · rw [if_neg (by simp), if_neg heq]
          exact Settles.pure (h.enter hpasses heq (hask.2 heq) hdepth)

theorem met_frontier {frontier : List NodeAt} {v : NodeAt} :
    Met spec (frontier.flatMap (allHops g spec.rels spec.direction)) v ↔
      ∃ u ∈ frontier, Adjacent g spec u v := by
  constructor
  · rintro ⟨hop, hmem, hpass, rfl⟩
    obtain ⟨u, hu, hhop⟩ := List.mem_flatMap.1 hmem
    exact ⟨u, hu, hop.1, List.mem_filter.2 ⟨hhop, hpass⟩⟩
  · rintro ⟨u, hu, e, htakes⟩
    obtain ⟨hhop, hpass⟩ := List.mem_filter.1 htakes
    exact ⟨(e, v), List.mem_flatMap.2 ⟨u, hu, hhop⟩, hpass, rfl⟩

theorem round_settles {depth : ℕ} (hstart : start ∈ st₀.seen) (hdepth : spec.min ≤ depth) :
    Settles (st₀.round g spec start depth)
      (∃ u ∈ st₀.next, ¬ Answerable g spec.rels spec.direction spec.gate u)
      (Spread spec start st₀ (st₀.next.flatMap (allHops g spec.rels spec.direction))) := by
  rw [Reached.round]
  apply Settles.foldlM (Spread spec start st₀) Spread.init
  intro done hop hmem st hst
  obtain ⟨u, hu, hhop⟩ := List.mem_flatMap.1 hmem
  apply (visit_settles hst hstart hdepth).weaken _ fun _ => id
  exact fun hfail => ⟨u, hu, fun hall => hfail (hall hop hhop)⟩

/-! ### The rounds -/

variable (g spec start) in
/-- A node with an edge back to the start, at fewer than so many hops. -/
def Closes (depth : ℕ) : Prop :=
  ∃ d < depth, ∃ u, Level (Adjacent g spec) (· = start) d u ∧ Adjacent g spec u start

variable (g spec start) in
/-- What the walk knows after so many rounds. -/
structure Walked (depth : ℕ) (st : Reached) : Prop where
  next : ∀ v, v ∈ st.next ↔ Level (Adjacent g spec) (· = start) depth v
  seen : ∀ v, v ∈ st.seen ↔ Within (Adjacent g spec) (· = start) depth v
  far : ∀ v, v ≠ start →
    (v ∈ st.far ↔ v.1 ∈ spec.toTables ∧ Within (Adjacent g spec) (· = start) depth v)
  back : start ∈ st.far ↔ start.1 ∈ spec.toTables ∧
    (spec.min = 0 ∨ (spec.mode ≠ .acyclic ∧ Closes g spec start depth))
  again : st.startAgain = true ↔ spec.mode = .acyclic ∨ start.1 ∉ spec.toTables ∨ spec.min = 0 ∨
    Closes g spec start depth

theorem closes_succ {depth : ℕ} : Closes g spec start (depth + 1) ↔
    Closes g spec start depth ∨
      ∃ u, Level (Adjacent g spec) (· = start) depth u ∧ Adjacent g spec u start := by
  constructor
  · rintro ⟨d, hd, h⟩
    obtain hlt | rfl := Nat.lt_succ_iff_lt_or_eq.1 hd
    · exact Or.inl ⟨d, hlt, h⟩
    · exact Or.inr h
  · rintro (⟨d, hd, h⟩ | h)
    · exact ⟨d, Nat.lt_succ_of_lt hd, h⟩
    · exact ⟨depth, Nat.lt_succ_self depth, h⟩

theorem Walked.init : Walked g spec start 0 (Reached.init spec start) := by
  have hcloses : ¬ Closes g spec start 0 := fun ⟨d, hd, _⟩ => Nat.not_lt_zero d hd
  have hwithin : ∀ v, Within (Adjacent g spec) (· = start) 0 v ↔ v = start := by
    intro v
    rw [within_iff_level]
    simp [level_zero]
  constructor
  · intro v
    rw [level_zero]
    exact List.mem_singleton
  · intro v
    rw [hwithin]
    exact Finset.mem_singleton
  · intro v hv
    simp [Reached.init, hwithin, hv]
  · simp [Reached.init, hcloses, and_comm]
  · simp [Reached.init, hcloses]

theorem Walked.next_round {depth : ℕ} {st st' : Reached} (h : Walked g spec start depth st)
    (hround : Spread spec start st (st.next.flatMap (allHops g spec.rels spec.direction)) st') :
    Walked g spec start (depth + 1) st' := by
  have hmet : ∀ v, Met spec (st.next.flatMap (allHops g spec.rels spec.direction)) v ↔
      ∃ u, Level (Adjacent g spec) (· = start) depth u ∧ Adjacent g spec u v := by
    intro v
    rw [met_frontier]
    exact exists_congr fun u => and_congr_left fun _ => h.next u
  have hlevel : ∀ v, v ∉ st.seen ∧
      Met spec (st.next.flatMap (allHops g spec.rels spec.direction)) v ↔
      Level (Adjacent g spec) (· = start) (depth + 1) v := by
    intro v
    rw [hmet, h.seen, level_succ, and_comm]
  have hwithin : ∀ v, Within (Adjacent g spec) (· = start) (depth + 1) v ↔
      v ∈ st.seen ∨ Met spec (st.next.flatMap (allHops g spec.rels spec.direction)) v := by
    intro v
    rw [within_succ, ← hlevel, h.seen]
    tauto
  constructor
  · intro v
    rw [hround.next, hlevel]
  · intro v
    rw [hround.seen, hwithin]
  · intro v hv
    rw [hround.far v hv, h.far v hv, ← h.seen, hwithin]
    tauto
  · rw [hround.back, h.back, closes_succ, ← hmet, ← Bool.not_eq_true, h.again]
    tauto
  · rw [hround.again, h.again, closes_succ, ← hmet]
    tauto

/-- The rounds come to their end, at a depth where the hops are used up or no node is. Where
they fail, the predicate has not answered about an edge the walk came to. -/
theorem reachFrom_settles (hmin : spec.min ≤ 1) {turns depth : ℕ} {st : Reached}
    (h : Walked g spec start depth st) (hallows : spec.Allows depth)
    (hdepth : depth ≤ (places g spec.rels start).card)
    (hturns : (places g spec.rels start).card < turns + depth) :
    Settles (reachFrom g spec start turns depth st)
      (∃ d u, Level (Adjacent g spec) (· = start) d u ∧ spec.full d = false ∧
        ¬ Answerable g spec.rels spec.direction spec.gate u)
      fun far => ∃ last st', Walked g spec start last st' ∧ st'.far = far ∧ spec.Allows last ∧
        ((∀ v, ¬ Level (Adjacent g spec) (· = start) last v) ∨ spec.full last = true) := by
  induction turns generalizing depth st with
  | zero =>
      rw [Nat.zero_add] at hturns
      exact absurd hdepth (Nat.not_le.2 hturns)
  | succ turns ih =>
      rw [reachFrom]
      split
      case isTrue hend =>
        apply Settles.pure
        rw [Bool.or_eq_true, List.isEmpty_iff] at hend
        refine ⟨depth, st, h, rfl, hallows, hend.imp_left fun hempty v hv => ?_⟩
        rw [← h.next, hempty] at hv
        exact absurd hv List.not_mem_nil
      case isFalse hgo =>
        rw [Bool.or_eq_true, not_or, List.isEmpty_iff, Bool.not_eq_true] at hgo
        obtain ⟨hsome, hfull⟩ := hgo
        obtain ⟨v, hv⟩ := List.exists_mem_of_ne_nil _ hsome
        have hless : depth < (places g spec.rels start).card :=
          level_lt_card (fun _ _ => level_mem_places) ((h.next v).1 hv)
        have hstart : start ∈ st.seen := (h.seen start).2 ⟨0, Nat.zero_le depth, rfl⟩
        apply Settles.bind
        · apply (round_settles hstart (hmin.trans (Nat.succ_pos depth))).weaken _ fun _ => id
          rintro ⟨u, hu, hfail⟩
          exact ⟨depth, u, (h.next u).1 hu, hfull, hfail⟩
        · intro st' hround
          apply ih (h.next_round hround)
          · exact fun m hm => VarSpec.full_eq_false.1 hfull m hm
          · exact hless
          · omega

/-- The start is closed within the last round where some walk of so many hops as the step
allows closes on it. -/
theorem closes_last {last : ℕ} (hallows : spec.Allows last)
    (hlast : (∀ v, ¬ Level (Adjacent g spec) (· = start) last v) ∨ spec.full last = true) :
    Closes g spec start last ↔ ∃ hop p, IsWalk (Takes g spec) start (hop :: p) ∧
      spec.Allows (p.length + 1) ∧ hop.2 = start := by
  constructor
  · rintro ⟨d, hd, u, hu, e, htakes⟩
    obtain ⟨p, hwalk, rfl, rfl⟩ := hops_iff.1 hu.1
    exact ⟨(e, start), p, ⟨hwalk, htakes⟩, fun m hm => Nat.le_trans hd (hallows m hm), rfl⟩
  · rintro ⟨⟨e, v⟩, p, ⟨hwalk, htakes⟩, hlen, rfl⟩
    have hops : Hops (Adjacent g spec) (· = v) p.length (ended v p) :=
      hops_iff.2 ⟨p, hwalk, rfl, rfl⟩
    obtain ⟨d, hd, hlevel⟩ := hops.exists_level
    refine ⟨d, ?_, ended v p, hlevel, e, htakes⟩
    obtain hempty | hfull := hlast
    · by_contra hle
      obtain ⟨u, hu⟩ := exists_level hlevel last (Nat.le_of_not_lt hle)
      exact hempty u hu
    · obtain ⟨m, hm, hle⟩ := VarSpec.full_eq_true.1 hfull
      exact Nat.lt_of_le_of_lt hd (Nat.lt_of_lt_of_le (hlen m hm) hle)

/-! ### The ends of the paths -/

/-- A node other than the start is the end of a path the step answers where a walk that is not
too long comes to it. -/
theorem exists_admitted_iff (hmin : spec.min ≤ 1) {v : NodeAt} (hv : v ≠ start) :
    (∃ p, Admitted g spec start p ∧ ended start p = v) ↔ v.1 ∈ spec.toTables ∧
      ∃ p, IsWalk (Takes g spec) start p ∧ spec.Allows p.length ∧ ended start p = v := by
  constructor
  · rintro ⟨p, hp, rfl⟩
    exact ⟨hp.table, p, hp.walk, hp.allows, rfl⟩
  · rintro ⟨htable, p, hwalk, hallows, rfl⟩
    obtain ⟨q, hq, hended, hlen, hnodup⟩ := exists_acyclic hwalk
    refine ⟨q, ⟨hq, spec.mode.admits_of_nodup hq hnodup, ?_, ?_, ?_⟩, hended⟩
    · cases q with
      | nil => exact absurd hended.symm hv
      | cons hop q => exact hmin.trans (Nat.succ_pos q.length)
    · exact fun m hm => hlen.trans (hallows m hm)
    · rw [hended]
      exact htable

variable (g spec start) in
/-- The start is on a path without a repeated edge that ends where it began. -/
def OnTrail : Prop :=
  ∃ p, IsWalk (Takes g spec) start p ∧ p ≠ [] ∧ ended start p = start ∧ (edges p).Nodup ∧
    spec.Allows p.length

variable (g spec start) in
/-- An edge is walked out from the start and back. -/
def OutAndBack : Prop :=
  ∃ u e, Takes g spec start e u ∧ Takes g spec u e start

/-- A walk that closes on the start is one without a repeated edge, or goes out and back. -/
theorem closed_cases {hop : Hop} {p : List Hop} (h : IsWalk (Takes g spec) start (hop :: p))
    (hallows : spec.Allows (p.length + 1)) (hclosed : hop.2 = start) :
    ∃ q, IsWalk (Takes g spec) start (hop :: q) ∧ spec.Allows (q.length + 1) ∧
      (nodes start q).Nodup ∧
      ((edges (hop :: q)).Nodup ∨ (OutAndBack g spec start ∧ spec.Allows 2)) := by
  obtain ⟨q, hq, hended, hlen, hnodup⟩ := exists_acyclic h.1
  have hstep : Takes g spec (ended start q) hop.1 hop.2 := by
    rw [hended]
    exact h.2
  have hshort : spec.Allows (q.length + 1) := fun m hm =>
    (Nat.succ_le_succ hlen).trans (hallows m hm)
  refine ⟨q, ⟨hq, hstep⟩, hshort, hnodup, ?_⟩
  rw [hclosed] at hstep
  obtain hnew | ⟨v, rfl⟩ := closed_by takes_joins hq hnodup hstep
  · left
    rw [edges, List.map_cons]
    exact List.nodup_cons.2 ⟨hnew, nodup_edges takes_joins hq hnodup⟩
  · exact Or.inr ⟨⟨v, hop.1, hq.2, hstep⟩, hshort⟩

/-- The start is the end of a path the step answers where it is put out, but where only an edge
walked out and back closes on it. -/
theorem exists_admitted_start_iff (hmin : spec.min ≤ 1) :
    ((start.1 ∈ spec.toTables ∧ (spec.min = 0 ∨ (spec.mode ≠ .acyclic ∧
        ∃ hop p, IsWalk (Takes g spec) start (hop :: p) ∧ spec.Allows (p.length + 1) ∧
          hop.2 = start)) ↔ ∃ p, Admitted g spec start p ∧ ended start p = start)) ↔
      (spec.mode = .trail → spec.min = 1 → start.1 ∈ spec.toTables → spec.Allows 2 →
        OutAndBack g spec start → OnTrail g spec start) := by
  constructor
  · intro hiff hmode hone htable htwo ⟨u, e, hout, hback⟩
    have hclosed : IsWalk (Takes g spec) start [(e, start), (e, u)] := ⟨⟨trivial, hout⟩, hback⟩
    obtain ⟨p, hp, hended⟩ := hiff.1 ⟨htable, Or.inr ⟨by simp [hmode],
      (e, start), [(e, u)], hclosed, htwo, rfl⟩⟩
    have hadmits := hp.admits
    rw [hmode] at hadmits
    refine ⟨p, hp.walk, ?_, hended, hadmits, hp.allows⟩
    rintro rfl
    have hpos := hp.min_le
    rw [hone] at hpos
    exact absurd hpos (Nat.not_succ_le_zero 0)
  · intro htrail
    constructor
    · rintro ⟨htable, hzero | ⟨hmode, hop, p, hwalk, hallows, hclosed⟩⟩
      · refine ⟨[], ⟨trivial, spec.mode.admits_nil start, ?_, fun m _ => Nat.zero_le m, htable⟩, rfl⟩
        exact Nat.le_of_eq hzero
      · obtain ⟨q, hq, hshort, hnodup, hedges⟩ := closed_cases hwalk hallows hclosed
        have hadmitted : spec.mode.Admits start (hop :: q) →
            ∃ p, Admitted g spec start p ∧ ended start p = start := by
          intro hadmits
          refine ⟨hop :: q, ⟨hq, hadmits, hmin.trans (Nat.succ_pos _), hshort, ?_⟩, hclosed⟩
          rw [ended, hclosed]
          exact htable
        cases hm : spec.mode with
        | walk =>
            apply hadmitted
            rw [hm]
            trivial
        | acyclic => exact absurd hm hmode
        | simple =>
            apply hadmitted
            rw [hm]
            obtain ⟨hnew, -, hapart⟩ := List.nodup_append.1 hnodup
            have hstart : start ∉ q.map Prod.snd := fun hmem =>
              hapart start hmem start (List.mem_singleton_self start) rfl
            refine ⟨?_, hstart⟩
            rw [List.map_cons, hclosed]
            exact List.nodup_cons.2 ⟨hstart, hnew⟩
        | trail =>
            obtain hnew | ⟨hboth, htwo⟩ := hedges
            · apply hadmitted
              rw [hm]
              exact hnew
            · obtain hzero | hone := Nat.le_one_iff_eq_zero_or_eq_one.1 hmin
              · exact ⟨[], ⟨trivial, spec.mode.admits_nil start, Nat.le_of_eq hzero,
                  fun m _ => Nat.zero_le m, htable⟩, rfl⟩
              · obtain ⟨p, hp, hsome, hended, hnew, hfits⟩ := htrail hm hone htable htwo hboth
                refine ⟨p, ⟨hp, ?_, ?_, hfits, ?_⟩, hended⟩
                · rw [hm]
                  exact hnew
                · exact hmin.trans (List.length_pos_iff.2 hsome)
                · rw [hended]
                  exact htable
    · rintro ⟨p, hp, hended⟩
      have htable : start.1 ∈ spec.toTables := by
        rw [← hended]
        exact hp.table
      refine ⟨htable, ?_⟩
      obtain hzero | hone := Nat.le_one_iff_eq_zero_or_eq_one.1 hmin
      · exact Or.inl hzero
      · right
        cases p with
        | nil =>
            have hpos := hp.min_le
            rw [hone] at hpos
            exact absurd hpos (Nat.not_succ_le_zero 0)
        | cons hop q =>
            refine ⟨fun hm => ?_, hop, q, hp.walk, hp.allows, hended⟩
            have hadmits := hp.admits
            rw [hm] at hadmits
            apply (List.nodup_cons.1 hadmits).1
            rw [show hop.2 = start from hended]
            exact start_mem_nodes q

theorem reachNodes_settles (hmin : spec.min ≤ 1) {turns : ℕ}
    (hturns : (places g spec.rels start).card < turns) :
    Settles (reachNodes g spec start turns)
      (∃ d u, Level (Adjacent g spec) (· = start) d u ∧ spec.full d = false ∧
        ¬ Answerable g spec.rels spec.direction spec.gate u)
      fun far =>
        (∀ v, v ≠ start → (v ∈ far ↔ ∃ p, Admitted g spec start p ∧ ended start p = v)) ∧
        (start ∈ far ↔ start.1 ∈ spec.toTables ∧ (spec.min = 0 ∨ (spec.mode ≠ .acyclic ∧
          ∃ hop p, IsWalk (Takes g spec) start (hop :: p) ∧ spec.Allows (p.length + 1) ∧
            hop.2 = start))) := by
  have hallows : spec.Allows 0 := fun m _ => Nat.zero_le m
  apply (reachFrom_settles hmin Walked.init hallows (Nat.zero_le _) hturns).weaken id
  rintro far ⟨last, st, hst, rfl, hlast, hend⟩
  constructor
  · intro v hv
    rw [hst.far v hv, within_last hlast hend, exists_admitted_iff hmin hv]
  · rw [hst.back, closes_last hlast hend]

/-- A node the walk comes to is one the search for paths has gone on from. -/
theorem answerable_of_search {d : ℕ} {u : NodeAt}
    (hasked : ∀ q, Chain g spec none start q → spec.full q.length = false →
      spec.closed start q = false → Answerable g spec.rels spec.direction spec.gate (ended start q))
    (hu : Level (Adjacent g spec) (· = start) d u) (hfull : spec.full d = false) :
    Answerable g spec.rels spec.direction spec.gate u := by
  obtain ⟨p, hwalk, rfl, rfl⟩ := hops_iff.1 hu.1
  obtain ⟨q, hq, hended, hlen, hnodup⟩ := exists_acyclic hwalk
  rw [← hended]
  have hroom : ∀ m, spec.max = some m → q.length < m := fun m hm =>
    Nat.lt_of_le_of_lt hlen (VarSpec.full_eq_false.1 hfull m hm)
  apply hasked
  · exact chain_iff.2 ⟨hq, spec.mode.admits_of_nodup hq hnodup, fun m hm => (hroom m hm).le⟩
  · exact VarSpec.full_eq_false.2 hroom
  · rw [VarSpec.closed, decide_eq_false_iff_not]
    rintro ⟨-, hback, hpos⟩
    cases q with
    | nil => exact absurd hpos (Nat.lt_irrefl 0)
    | cons hop q =>
        rw [nodes_cons, show hop.2 = start from hback] at hnodup
        exact (List.nodup_cons.1 hnodup).1 (start_mem_nodes q)

end

/-- An expand is told to reach its ends only under a lower bound of one hop and without a
selector. -/
theorem rewriteReachVarlen_reach {aSet bracketed : Bool} {refs : Finset ℕ}
    {ops : List (VarExpand ε)} {op : VarExpand ε}
    (h : op ∈ rewriteReachVarlen aSet bracketed refs ops) (hpaths : ∀ op ∈ ops, op.reach = false)
    (hreach : op.reach = true) : op.min ≤ 1 ∧ op.selector = none := by
  have hgiven : op ∉ ops := by
    intro hmem
    rw [hpaths op hmem] at hreach
    exact absurd hreach Bool.false_ne_true
  rw [rewriteReachVarlen] at h
  split at h
  · exact absurd h hgiven
  · obtain ⟨op₀, hmem, rfl⟩ := List.mem_map.1 h
    rw [rewriteReach] at hgiven ⊢
    split at hgiven
    case isTrue hfits =>
      rw [if_pos hfits]
      exact ⟨hfits.1, hfits.2.1⟩
    case isFalse => exact absurd hmem hgiven

/-- An expand that `rewrite_reach_varlen` has told to reach its ends answers the ends of the
paths there are, if and only if no trail is missing: where a trail of one hop or more is asked
for, and an edge may be walked from the start and back, the start is on a trail that ends where
it began. The search for the paths comes to its end as well, and where it does not fail, neither
does the walk. -/
theorem reach_answers_iff (g : Graph) {aSet bracketed : Bool} {refs : Finset ℕ}
    {ops : List (VarExpand ε)} {op : VarExpand ε}
    (hop : op ∈ rewriteReachVarlen aSet bracketed refs ops)
    (hpaths : ∀ op ∈ ops, op.reach = false) (hreach : op.reach = true)
    (hbound : op.selector = none → op.mode = .walk → op.max ≠ none) (start : NodeAt) :
    ∃ enough, ∀ fuel ≥ enough, ∃ paths far,
      (enumeratePaths g op.toVarSpec none start (fun out p => out ++ [p]) fuel [] []).run =
        some paths ∧
      (reachNodes g op.toVarSpec start fuel).run = some far ∧
      (∀ out, paths = .ok out →
        (∀ p, p ∈ out ↔ Admitted g op.toVarSpec start p) ∧ ∃ vs, far = .ok vs) ∧
      ∀ vs, far = .ok vs →
        ((∀ v, v ∈ vs ↔ ∃ p, Admitted g op.toVarSpec start p ∧ ended start p = v) ↔
          (op.mode = .trail → op.min = 1 → start.1 ∈ op.toTables → op.Allows 2 →
            OutAndBack g op.toVarSpec start → OnTrail g op.toVarSpec start)) := by
  obtain ⟨hmin, hselector⟩ := rewriteReachVarlen_reach hop hpaths hreach
  obtain ⟨longest, hlongest⟩ := exists_longest (g := g) start (hbound hselector)
  refine ⟨longest + (places g op.rels start).card + 1, fun fuel hfuel => ?_⟩
  have hlong : longest ≤ fuel + ([] : List Hop).length := by
    rw [List.length_nil]
    omega
  have hturns : (places g op.rels start).card < fuel := by omega
  obtain ⟨paths, hpaths, hfound, -⟩ := enumerate_settles (fun out p => out ++ [p]) hlongest
    chain_nil hlong []
  obtain ⟨far, hfar, hends, hfails⟩ := reachNodes_settles (g := g) hmin hturns
  refine ⟨paths, far, hpaths, hfar, fun out hout => ?_, fun vs hvs => ?_⟩
  · obtain ⟨rfl, hasked⟩ := hfound out hout
    constructor
    · intro p
      rw [foldl_push, List.nil_append, mem_pathsFrom_start]
      exact fun p hp => (hlongest p hp).trans_le (by omega)
    · cases far with
      | ok vs => exact ⟨vs, rfl⟩
      | error e =>
          obtain ⟨d, u, hu, hfull, hnot⟩ := hfails e rfl
          refine absurd (answerable_of_search (fun q hq hroom hclosed => ?_) hu hfull) hnot
          have h := hasked q
          rw [List.append_nil] at h
          exact h hq hroom hclosed rfl
  · obtain ⟨hothers, hstart⟩ := hends vs hvs
    rw [← exists_admitted_start_iff hmin, ← hstart]
    refine ⟨fun h => h start, fun h v => ?_⟩
    by_cases hv : v = start
    · rw [hv]
      exact h
    · exact hothers v hv

/-- Two nodes and an undirected edge between them. -/
def couple : Graph where
  neighbors id row backwards :=
    if id = 0 ∧ row = 0 ∧ backwards = false then [(1, 0)]
    else if id = 0 ∧ row = 1 ∧ backwards = true then [(0, 0)]
    else []
  rows := 2
  lt_rows id row backwards x hx := by
    split at hx
    · rw [List.mem_singleton.1 hx]
      decide
    · split at hx
      · rw [List.mem_singleton.1 hx]
        decide
      · exact absurd hx List.not_mem_nil

/-- A trail of one or two hops over the edge, whichever way. -/
def upToTwo : VarExpand Unit where
  rels := [⟨0, 0, 0, true⟩]
  direction := .any
  toTables := [0]
  min := 1
  max := some 2
  mode := .trail
  gate _ := .ok true
  rels_by_id := by simp
  selector := none
  target := none
  relSlot := 2
  reach := false
  counts := false

/-- The start is put out over the edge walked out and back, which no trail is. -/
theorem not_every_end_kept :
    ∃ op ∈ rewriteReachVarlen true false {1} [upToTwo], op.reach = true ∧
      (reachNodes couple op.toVarSpec (0, 0) 3).run = some (.ok [(0, 1), (0, 0)]) ∧
      (enumeratePaths couple op.toVarSpec none (0, 0) (fun out p => out ++ [p]) 3 [] []).run =
        some (.ok [[(⟨0, 0, 1, 0⟩, (0, 1))]]) ∧
      ¬ ∀ v, v ∈ [((0, 1) : NodeAt), (0, 0)] ↔
        ∃ p ∈ [[((⟨0, 0, 1, 0⟩, (0, 1)) : Hop)]], ended (0, 0) p = v := by
  refine ⟨rewriteReach {1} upToTwo, List.mem_singleton_self _, rfl, rfl, rfl, fun h => ?_⟩
  obtain ⟨p, hp, hended⟩ := (h (0, 0)).1 (by decide)
  rw [List.mem_singleton.1 hp] at hended
  exact absurd hended (by decide)

/-- From the other node as from the first, it is the trail back that is missing. -/
theorem reach_answers_couple :
    ∃ enough, ∀ fuel ≥ enough, ∃ paths far,
      (enumeratePaths couple (rewriteReach {1} upToTwo).toVarSpec none (0, 1)
        (fun out p => out ++ [p]) fuel [] []).run = some paths ∧
      (reachNodes couple (rewriteReach {1} upToTwo).toVarSpec (0, 1) fuel).run = some far ∧
      (∀ out, paths = .ok out →
        (∀ p, p ∈ out ↔ Admitted couple (rewriteReach {1} upToTwo).toVarSpec (0, 1) p) ∧
          ∃ vs, far = .ok vs) ∧
      ∀ vs, far = .ok vs →
        ((∀ v, v ∈ vs ↔ ∃ p, Admitted couple (rewriteReach {1} upToTwo).toVarSpec (0, 1) p ∧
            ended (0, 1) p = v) ↔
          ((rewriteReach {1} upToTwo).mode = .trail → (rewriteReach {1} upToTwo).min = 1 →
            0 ∈ (rewriteReach {1} upToTwo).toTables → (rewriteReach {1} upToTwo).Allows 2 →
            OutAndBack couple (rewriteReach {1} upToTwo).toVarSpec (0, 1) →
              OnTrail couple (rewriteReach {1} upToTwo).toVarSpec (0, 1))) :=
  @reach_answers_iff Unit couple true false {1} [upToTwo] _
    (List.mem_singleton_self _) (by simp [upToTwo]) rfl (fun _ h => nomatch h) (0, 1)

end Reach

end Zu.Query
