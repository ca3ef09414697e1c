import Zu.Query.Meeting
import Zu.Query.Reach

/-!
# Variable-length expands

A variable-length step as the operator runs it: which of the searches answers it, and that each
of them answers what the selector keeps of the paths the step admits. The searches that go by
levels leave out the paths that return to the start.
-/

namespace Zu.Query

open Lib Lib.Walks Levels

variable {ε : Type} (g : Graph)

/-- `key_nodes`, where `lookup` gives the row the key names in a table. -/
def keyNodes (lookup : ℕ → Option ℕ) (tables : List ℕ) : List NodeAt :=
  tables.filterMap fun table => (lookup table).map fun row => (table, row)

/-- What the columns of an expand hold: the far ends, and the paths to them. -/
structure Answer where
  far : List NodeAt
  trails : List (List Hop)

/-- The far ends are where the paths end. -/
def Answer.of (start : NodeAt) (paths : List (List Hop)) : Answer :=
  ⟨paths.map (ended start), paths⟩

namespace VarExpand

/-- The expand a variable-length step is compiled to, where `key` is what the next filter pins
its far end by. Only a search for one shortest path takes the key. -/
def compile (spec : VarSpec ε) (selector : Option Selector) (key : Option (ℕ → Option ℕ))
    (relSlot : ℕ) : VarExpand ε where
  toVarSpec := spec
  selector := selector
  target :=
    if selector = some .anyShortest ∧ spec.min ≤ 1 then
      key.map fun lookup => keyNodes lookup spec.toTables
    else none
  relSlot := relSlot
  reach := false
  counts := false

/-- Whether the searches that level the graph answer the expand: they read a hop count as the
distance from the start. -/
def levelled (op : VarExpand ε) : Bool :=
  decide ((op.selector = some .anyShortest ∨ op.selector = some .allShortest) ∧ op.min ≤ 1)

/-- An expand whose paths are only counted, where nothing else reads them. -/
def counting (op : VarExpand ε) : VarExpand ε :=
  if op.target = none ∧ op.reach = false ∧ op.levelled = true then { op with counts := true }
  else op

def next (op : VarExpand ε) (start : NodeAt) (turns : ℕ) : Timed ε Answer :=
  match op.target with
  | some dsts => Answer.of start <$> Meeting.pinned g op.toVarSpec start dsts turns
  | none =>
      if op.levelled && decide (op.selector = some .anyShortest) then
        Answer.of start <$> anyShortest g op.toVarSpec start turns
      else if op.levelled then
        Answer.of start <$> allShortest g op.toVarSpec start turns
      else if op.reach then
        (⟨·, []⟩) <$> Reach.reachNodes g op.toVarSpec start turns
      else do
        let out ← enumeratePaths g op.toVarSpec none start (Paths.push start) turns []
          (Paths.new (Keep.of op.selector))
        return Answer.of start out.finish

/-- How many paths an expand that counts them answers at a start node. -/
def count (op : VarExpand ε) (start : NodeAt) (turns : ℕ) : Timed ε ℕ :=
  countShortest g op.toVarSpec start (decide (op.selector = some .allShortest)) turns

/-- The expand asks for paths to a node: every node, unless a key names those it asks for. -/
def Asks (op : VarExpand ε) (v : NodeAt) : Prop := ∀ dsts, op.target = some dsts → v ∈ dsts

/-- The paths are what the selector keeps of those the step admits, to each node that is
asked for. -/
def Answers (op : VarExpand ε) (start : NodeAt) (paths : List (List Hop)) : Prop :=
  ∀ v, (op.Asks v →
      (Keep.of op.selector).Keeps (admitted g op.toVarSpec start v) (toNode start v paths)) ∧
    (¬ op.Asks v → toNode start v paths = [])

/-- The expand is answered by levels where it asks for paths that return to the start. -/
def Misses (op : VarExpand ε) (start : NodeAt) : Prop :=
  op.levelled = true ∧ op.Asks start ∧ Returns g op.toVarSpec start

end VarExpand

/-! ### The pinned search -/

section

variable {g} {spec : VarSpec ε} {start : NodeAt}

theorem mem_keyNodes {lookup : ℕ → Option ℕ} {tables : List ℕ} {v : NodeAt} :
    v ∈ keyNodes lookup tables ↔ v.1 ∈ tables ∧ lookup v.1 = some v.2 := by
  rw [keyNodes, List.mem_filterMap]
  constructor
  · rintro ⟨table, htable, h⟩
    obtain ⟨row, hrow, rfl⟩ := Option.map_eq_some_iff.1 h
    exact ⟨htable, hrow⟩
  · rintro ⟨htable, hrow⟩
    refine ⟨v.1, htable, ?_⟩
    rw [hrow]
    rfl

theorem nodup_keyNodes {lookup : ℕ → Option ℕ} {tables : List ℕ} (h : tables.Nodup) :
    (keyNodes lookup tables).Nodup := by
  apply h.filterMap
  intro a b v hv hv'
  obtain ⟨row, -, rfl⟩ := Option.map_eq_some_iff.1 hv
  obtain ⟨row', -, heq⟩ := Option.map_eq_some_iff.1 hv'
  exact (congrArg Prod.fst heq).symm

/-- The path a search found, unless it is too short. -/
def longEnough (spec : VarSpec ε) (found : Option (List Hop)) : List (List Hop) :=
  found.toList.filter fun p => decide (spec.min ≤ p.length)

/-- What the meeting search finds between two nodes is one path of the fewest hops, where the
far one is answered. -/
theorem oneTo_of_found {dst : NodeAt} (htable : dst.1 ∈ spec.toTables) {found : Option (List Hop)}
    (hsome : ∀ p, found = some p → IsWalk (Takes g spec) start p ∧ ended start p = dst ∧
      Level (Adjacent g spec) (· = start) p.length dst ∧ spec.Allows p.length)
    (hnone : found = none → ∀ d, Level (Adjacent g spec) (· = start) d dst → ¬ spec.Allows d) :
    OneTo g spec start dst (longEnough spec found) := by
  cases found with
  | none =>
      refine ⟨fun hanswered => ?_, fun _ => rfl⟩
      obtain ⟨l, hl, hfits, -⟩ := hanswered
      exact absurd hfits (hnone rfl l hl)
  | some p =>
      obtain ⟨hwalk, hended, hlevel, hfits⟩ := hsome p rfl
      by_cases hlong : spec.min ≤ p.length
      · have hkept : longEnough spec (some p) = [p] := by simp [longEnough, hlong]
        rw [hkept]
        refine ⟨fun _ => ⟨p, rfl, hwalk, hended, hlevel⟩, fun hnot => ?_⟩
        exact absurd ⟨p.length, hlevel, hfits, hlong, htable⟩ hnot
      · have hkept : longEnough spec (some p) = [] := by simp [longEnough, Nat.lt_of_not_le hlong]
        rw [hkept]
        refine ⟨fun hanswered => ?_, fun _ => rfl⟩
        obtain ⟨l, hl, -, hmin, -⟩ := hanswered
        rw [level_unique hl hlevel] at hmin
        exact absurd hmin hlong

/-- The pinned search answers one path of the fewest hops to each node it is given. -/
theorem pinned_settles (hmirror : Meeting.Mirrored g) {dsts : List NodeAt} (hnodup : dsts.Nodup)
    (htables : ∀ v ∈ dsts, v.1 ∈ spec.toTables) {turns : ℕ}
    (hturns : ∀ dst ∈ dsts,
      (places g spec.rels start).card + (places g spec.rels dst).card < turns) :
    Settles (Meeting.pinned g spec start dsts turns) True fun out =>
      (∀ v ∈ dsts, OneTo g spec start v (toNode start v out)) ∧
        ∀ v, v ∉ dsts → toNode start v out = [] := by
  -- What the search finds to each node is what it comes to there.
  let found (v : NodeAt) : List (List Hop) :=
    ((Meeting.pairShortest g spec start v turns).run.bind Except.toOption).elim [] (longEnough spec)
  have hrun : Settles (Meeting.pinned g spec start dsts turns) True fun out =>
      out = dsts.flatMap found ∧
        ∀ v ∈ dsts, (∀ p ∈ found v, ended start p = v) ∧ OneTo g spec start v (found v) := by
    rw [Meeting.pinned]
    apply Settles.foldlM (fun done out => out = done.flatMap found ∧
      ∀ v ∈ done, (∀ p ∈ found v, ended start p = v) ∧ OneTo g spec start v (found v))
    · exact ⟨rfl, fun v hv => absurd hv List.not_mem_nil⟩
    · rintro done dst hdst far ⟨rfl, hdone⟩
      apply Settles.bind (Meeting.pairShortest_settles hmirror (hturns dst hdst)).ran
      rintro path ⟨hran, hsome, hnone⟩
      apply Settles.pure
      have hfound : found dst = longEnough spec path := by
        simp only [found, hran]
        rfl
      constructor
      · rw [List.flatMap_append, List.flatMap_singleton, hfound]
        cases path with
        | none => rw [longEnough, Option.toList_none, List.filter_nil, List.append_nil]
        | some p =>
            dsimp only
            split
            case isTrue hshort => simp [longEnough, hshort]
            case isFalse hlong => simp [longEnough, Nat.le_of_not_lt hlong]
      · intro v hv
        obtain hv | hv := List.mem_append.1 hv
        · exact hdone v hv
        · rw [List.mem_singleton.1 hv, hfound]
          refine ⟨fun p hp => ?_, oneTo_of_found (htables dst hdst) hsome hnone⟩
          have hmem := List.mem_of_mem_filter hp
          rw [Option.mem_toList] at hmem
          exact (hsome p hmem).2.1
  apply hrun.weaken id
  rintro out ⟨rfl, hpaths⟩
  have hto := toNode_flatMap hnodup fun v hv => (hpaths v hv).1
  constructor
  · intro v hv
    rw [hto, if_pos hv]
    exact (hpaths v hv).2
  · intro v hv
    rw [hto, if_neg hv]

/-! ### The depth-first search -/

/-- The depth-first search answers what the selector keeps of the paths the step admits. -/
theorem search_settles {keep : Keep} (hkeep : keep.Some) {turns : ℕ}
    (hlongest : ∀ p, Chain g spec none start p → p.length < turns) :
    Settles (enumeratePaths g spec none start (Paths.push start) turns [] (Paths.new keep)) True
      fun out => ∀ v, keep.Keeps (admitted g spec start v) (toNode start v out.finish) := by
  apply (enumerate_settles (Paths.push start) hlongest chain_nil (Nat.le_refl _) _).weaken id
  rintro out ⟨rfl, -⟩ v
  have htaken : Taken start ([] ++ pathsFrom g spec none start turns [])
      ((pathsFrom g spec none start turns []).foldl (Paths.push start) (Paths.new keep)) :=
    (Taken.new keep).foldl hkeep
  rw [List.nil_append] at htaken
  have hfound : ∀ p, (toNode start v (pathsFrom g spec none start turns [])).count p =
      admitted g spec start v p := fun p => ?_
  · have hkept := htaken.keeps hfound
    rw [Paths.keep_foldl] at hkept
    exact hkept
  rw [count_toNode]
  by_cases hp : Admitted g spec start p ∧ ended start p = v
  · obtain ⟨hp, hended⟩ := hp
    rw [if_pos hended, admitted_of hp hended]
    have hchain : Chain g spec none start (p ++ []) := by
      rw [List.append_nil]
      exact chain_iff.2 ⟨hp.walk, hp.admits, hp.allows⟩
    have hanswers : spec.answers start (p ++ []) = true := by
      rw [List.append_nil, VarSpec.answers, decide_eq_true_eq]
      exact ⟨hp.min_le, hp.table⟩
    have hlen : p.length < turns := by
      rw [List.append_nil] at hchain
      exact hlongest p hchain
    have hcount := count_pathsFrom chain_nil hchain hanswers hlen
    rw [List.append_nil] at hcount
    exact hcount
  · have hzero : admitted g spec start v p = 0 := if_neg hp
    rw [hzero]
    split
    case isTrue hended =>
      apply List.count_eq_zero.2
      intro hmem
      exact hp ⟨(mem_pathsFrom_start hlongest).1 hmem, hended⟩
    case isFalse => rfl

/-! ### How many paths are kept -/

theorem Keep.Keeps.length_le {keep : Keep} {paths : List Hop → ℕ} {a b : List (List Hop)}
    (ha : keep.Keeps paths a) (hb : keep.Keeps paths b) : a.length ≤ b.length := by
  have hcount : (∀ p, a.count p ≤ b.count p) → a.length ≤ b.length := fun h =>
    (subperm_of_count h).length_le
  have hsome : ∀ k, a.length ≤ k → (∀ p, a.count p ≤ paths p) →
      (b.length < k → ∀ p, b.count p = paths p) → a.length ≤ b.length := by
    intro k hk hle hall
    by_contra hlt
    apply hlt
    apply hcount
    intro p
    rw [hall (by omega)]
    exact hle p
  cases keep with
  | all => exact hcount fun p => ((ha p).trans (hb p).symm).le
  | first k => exact hsome k ha.2.1 ha.1 hb.2.2
  | least k => exact hsome k ha.2.1 ha.1 hb.2.2.1
  | leastGroups k => exact hcount fun p => ((ha p).trans (hb p).symm).le

theorem length_toNode (v : NodeAt) (paths : List (List Hop)) :
    (toNode start v paths).length = (paths.map (ended start)).count v := by
  rw [toNode, List.count_eq_countP, List.countP_map, List.countP_eq_length_filter]
  congr 2
  funext p
  rw [Function.comp_apply, Bool.eq_iff_iff, decide_eq_true_eq, beq_iff_eq]

theorem subperm_ended {a b : List (List Hop)}
    (h : ∀ v, (toNode start v a).length ≤ (toNode start v b).length) :
    (a.map (ended start)).Subperm (b.map (ended start)) := by
  apply List.subperm_iff_count.2
  intro v
  have hv := h v
  rw [length_toNode, length_toNode] at hv
  convert hv using 2
  all_goals exact lawful_beq_subsingleton _ _

theorem length_le_of_toNode {a b : List (List Hop)}
    (h : ∀ v, (toNode start v a).length ≤ (toNode start v b).length) : a.length ≤ b.length := by
  have hlen := (subperm_ended h).length_le
  rw [List.length_map, List.length_map] at hlen
  exact hlen

theorem length_lt_of_toNode {a b : List (List Hop)}
    (h : ∀ v, (toNode start v a).length ≤ (toNode start v b).length) {v : NodeAt}
    (hv : (toNode start v a).length < (toNode start v b).length) : a.length < b.length := by
  refine Nat.lt_of_le_of_ne (length_le_of_toNode h) fun heq => ?_
  have hperm := (subperm_ended h).perm_of_length_le (by rw [List.length_map, List.length_map, heq])
  rw [length_toNode, length_toNode, hperm.count_eq v] at hv
  exact absurd hv (Nat.lt_irrefl _)

end

/-! ### What an expand answers -/

namespace VarExpand

variable {g} {op : VarExpand ε} {start : NodeAt}

theorem compile_target {spec : VarSpec ε} {selector : Option Selector}
    {key : Option (ℕ → Option ℕ)} {relSlot : ℕ} (hapart : spec.toTables.Nodup)
    {dsts : List NodeAt} (h : (compile spec selector key relSlot).target = some dsts) :
    (selector = some .anyShortest ∧ spec.min ≤ 1) ∧ dsts.Nodup ∧
      ∀ v ∈ dsts, v.1 ∈ spec.toTables := by
  rw [compile] at h
  dsimp only at h
  split at h
  case isFalse => cases h
  case isTrue hpins =>
    obtain ⟨lookup, -, rfl⟩ := Option.map_eq_some_iff.1 h
    exact ⟨hpins, nodup_keyNodes hapart, fun v hv => (mem_keyNodes.1 hv).1⟩

/-- Where levels answer every node that is asked for but a start that is returned to, that is
what an expand misses. -/
theorem answers_iff (hlevelled : op.levelled = true) {paths : List (List Hop)}
    (hto : ∀ v, op.Asks v →
      ((Keep.of op.selector).Keeps (admitted g op.toVarSpec start v) (toNode start v paths) ↔
        ¬ (v = start ∧ Returns g op.toVarSpec start)))
    (hnone : ∀ v, ¬ op.Asks v → toNode start v paths = []) :
    op.Answers g start paths ↔ ¬ op.Misses g start := by
  constructor
  · rintro h ⟨-, hasks, hreturns⟩
    exact (hto start hasks).1 ((h start).1 hasks) ⟨rfl, hreturns⟩
  · intro hmisses v
    refine ⟨fun hasks => (hto v hasks).2 ?_, hnone v⟩
    rintro ⟨rfl, hreturns⟩
    exact hmisses ⟨hlevelled, hasks, hreturns⟩

theorem asks_of_none (htarget : op.target = none) (v : NodeAt) : op.Asks v := by
  intro dsts h
  rw [htarget] at h
  cases h

/-- The search of an expand comes to its end, and answers what the selector keeps but for what
the expand misses. -/
theorem next_settles (hmirror : Meeting.Mirrored g) (hreach : op.reach = false)
    (hkeep : (Keep.of op.selector).Some)
    (htarget : ∀ dsts, op.target = some dsts → (op.selector = some .anyShortest ∧ op.min ≤ 1) ∧
      dsts.Nodup ∧ ∀ v ∈ dsts, v.1 ∈ op.toTables)
    (hbound : op.mode = .walk → op.max = none → op.levelled = true) (start : NodeAt) :
    ∃ enough, ∀ turns ≥ enough, Settles (op.next g start turns) True fun out =>
      out.far = out.trails.map (ended start) ∧
        (op.Answers g start out.trails ↔ ¬ op.Misses g start) := by
  cases hgiven : op.target with
  | some dsts =>
      obtain ⟨⟨hselector, hmin⟩, hnodup, htables⟩ := htarget dsts hgiven
      have hlevelled : op.levelled = true := decide_eq_true ⟨Or.inl hselector, hmin⟩
      have hasks : ∀ v, op.Asks v ↔ v ∈ dsts := by
        intro v
        rw [Asks, hgiven]
        simp
      refine ⟨(places g op.rels start).card +
        (dsts.map fun dst => (places g op.rels dst).card).sum + 1, fun turns hturns => ?_⟩
      have henough : ∀ dst ∈ dsts,
          (places g op.rels start).card + (places g op.rels dst).card < turns := by
        intro dst hdst
        have hle : (places g op.rels dst).card ≤
            (dsts.map fun dst => (places g op.rels dst).card).sum :=
          List.le_sum_of_mem (List.mem_map_of_mem hdst)
        omega
      rw [next, hgiven]
      dsimp only
      apply Settles.map
      apply (pinned_settles hmirror hnodup htables henough).weaken id
      rintro out ⟨hone, hnone⟩
      refine ⟨rfl, answers_iff hlevelled ?_ ?_⟩
      · intro v hv
        rw [hselector]
        exact (hone v ((hasks v).1 hv)).keeps_iff hmin
      · exact fun v hv => hnone v fun hmem => hv ((hasks v).2 hmem)
  | none =>
      by_cases hlevelled : op.levelled = true
      · refine ⟨(places g op.rels start).card + 1, fun turns hturns => ?_⟩
        obtain ⟨hselector, hmin⟩ := of_decide_eq_true hlevelled
        rw [next, hgiven]
        dsimp only
        by_cases hany : op.selector = some .anyShortest
        · rw [if_pos (by simp [hlevelled, hany])]
          apply Settles.map
          apply (anyShortest_settles (Nat.lt_of_succ_le hturns)).weaken id
          intro out hone
          refine ⟨rfl, answers_iff hlevelled ?_ ?_⟩
          · intro v _
            rw [hany]
            exact (hone v).keeps_iff hmin
          · exact fun v hv => absurd (asks_of_none hgiven v) hv
        · rw [if_neg (by simp [hany]), if_pos hlevelled]
          apply Settles.map
          apply (allShortest_settles (Nat.lt_of_succ_le hturns)).weaken id
          intro out heach
          refine ⟨rfl, answers_iff hlevelled ?_ ?_⟩
          · intro v _
            rw [hselector.resolve_left hany]
            exact (heach v).keeps_iff hmin
          · exact fun v hv => absurd (asks_of_none hgiven v) hv
      · obtain ⟨longest, hlongest⟩ := @exists_longest ε g op.toVarSpec start
          fun hwalk hmax => hlevelled (hbound hwalk hmax)
        refine ⟨longest, fun turns hturns => ?_⟩
        rw [next, hgiven]
        dsimp only
        rw [if_neg (by simp [hlevelled]), if_neg hlevelled, if_neg (by simp [hreach])]
        apply Settles.bind (search_settles hkeep fun p hp => (hlongest p hp).trans_le hturns)
        intro out hkept
        apply Settles.pure
        refine ⟨rfl, fun _ hmisses => hlevelled hmisses.1, fun _ v => ⟨fun _ => hkept v, ?_⟩⟩
        exact fun hv => absurd (asks_of_none hgiven v) hv

/-! ### What an expand counts -/

theorem Answers.length_le {a b : List (List Hop)} (ha : op.Answers g start a)
    (hb : op.Answers g start b) : a.length ≤ b.length := by
  apply length_le_of_toNode
  intro v
  by_cases hasks : op.Asks v
  · exact ((ha v).1 hasks).length_le ((hb v).1 hasks)
  · rw [(ha v).2 hasks]
    exact Nat.zero_le _

/-- What the levels count: the paths to each node but for a start that is returned to. -/
theorem count_of_levels (hlevelled : op.levelled = true) {turns : ℕ}
    (hturns : (places g op.rels start).card < turns) :
    Settles (op.count g start turns) True fun total => ∃ out : List (List Hop),
      (∀ v, (Keep.of op.selector).Keeps (admitted g op.toVarSpec start v) (toNode start v out) ↔
        ¬ (v = start ∧ Returns g op.toVarSpec start)) ∧
      (Returns g op.toVarSpec start → toNode start start out = []) ∧
      total = min out.length (2 ^ 64 - 1) := by
  obtain ⟨hselector, hmin⟩ := of_decide_eq_true hlevelled
  apply (countShortest_settles hturns).weaken id
  rintro total ⟨out, hto, htotal⟩
  refine ⟨out, fun v => ?_, fun hreturns => ?_, htotal⟩
  · have hv := hto v
    split at hv
    case isTrue hall =>
      rw [of_decide_eq_true hall]
      exact hv.keeps_iff hmin
    case isFalse hall =>
      rw [decide_eq_true_eq] at hall
      rw [hselector.resolve_right hall]
      exact hv.keeps_iff hmin
  · have hstart := hto start
    split at hstart
    · exact hstart.none (not_answered_start hreturns.1)
    · exact hstart.none (not_answered_start hreturns.1)

/-- The count is how many paths the selector keeps, if and only if the expand misses none and
they are no more than the count can say. -/
theorem count_settles (hlevelled : op.levelled = true) (htarget : op.target = none) {turns : ℕ}
    (hturns : (places g op.rels start).card < turns) :
    Settles (op.count g start turns) True fun total =>
      ((∃ paths, op.Answers g start paths ∧ total = paths.length) ↔
        ¬ op.Misses g start ∧
          ∀ paths, op.Answers g start paths → paths.length < 2 ^ 64) := by
  apply (count_of_levels hlevelled hturns).weaken id
  rintro total ⟨out, hto, hnone, rfl⟩
  have hasks := asks_of_none htarget
  have hcorrect : op.Answers g start out ↔ ¬ op.Misses g start :=
    answers_iff hlevelled (fun v _ => hto v) fun v hv => absurd (hasks v) hv
  constructor
  · rintro ⟨paths, hpaths, htotal⟩
    have hmisses : ¬ op.Misses g start := by
      rintro ⟨-, -, hreturns⟩
      have hnothing := hnone hreturns
      -- To the start something is kept, and nothing is counted.
      have hless : (toNode start start out).length < (toNode start start paths).length := by
        rw [hnothing]
        apply List.length_pos_of_ne_nil
        intro hempty
        have hkept := (hpaths start).1 (hasks start)
        rw [hempty, ← hnothing] at hkept
        exact (hto start).1 hkept ⟨rfl, hreturns⟩
      have hlength : out.length < paths.length := by
        refine length_lt_of_toNode (fun v => ?_) hless
        by_cases hv : v = start
        · rw [hv]
          exact hless.le
        · exact ((hto v).2 fun h => hv h.1).length_le ((hpaths v).1 (hasks v))
      omega
    refine ⟨hmisses, fun paths' hpaths' => ?_⟩
    have hle := hpaths'.length_le hpaths
    omega
  · rintro ⟨hmisses, hfew⟩
    have hout := hcorrect.2 hmisses
    have hlength := hfew out hout
    exact ⟨out, hout, by omega⟩

end VarExpand

/-! ### Paths are what the selector keeps -/

/-- A variable-length step is answered by what its selector keeps of the paths that the step
admits, if and only if it is not answered by levels where a path that returns to the start is
asked for. Where it counts the paths only, the paths must be no more than the count can say
as well. -/
theorem varExpand_answers_iff {g : Graph} (hmirror : Meeting.Mirrored g) {spec : VarSpec ε}
    {selector : Option Selector} {key : Option (ℕ → Option ℕ)} {relSlot : ℕ} {op : VarExpand ε}
    (hop : op = VarExpand.compile spec selector key relSlot) (hapart : op.toTables.Nodup)
    (hkeep : (Keep.of op.selector).Some)
    (hbound : op.mode = .walk → op.max = none → op.levelled = true) (start : NodeAt) :
    ∃ enough, ∀ turns ≥ enough,
      (∃ r, (op.next g start turns).run = some r ∧ ∀ out, r = .ok out →
        out.far = out.trails.map (ended start) ∧
          (op.Answers g start out.trails ↔ ¬ op.Misses g start)) ∧
      (op.counting.counts = true →
        ∃ r, (op.count g start turns).run = some r ∧ ∀ total, r = .ok total →
          ((∃ paths, op.Answers g start paths ∧ total = paths.length) ↔
            ¬ op.Misses g start ∧
              ∀ paths, op.Answers g start paths → paths.length < 2 ^ 64)) := by
  subst hop
  obtain ⟨enough, hnext⟩ := VarExpand.next_settles hmirror rfl hkeep
    (fun _ h => VarExpand.compile_target hapart h) hbound start
  refine ⟨enough + (places g spec.rels start).card + 1, fun turns hturns => ⟨?_, ?_⟩⟩
  · obtain ⟨r, hr, hok, -⟩ := hnext turns (by omega)
    exact ⟨r, hr, hok⟩
  · intro hcounts
    have hplan : (VarExpand.compile spec selector key relSlot).target = none ∧
        (VarExpand.compile spec selector key relSlot).levelled = true := by
      rw [VarExpand.counting] at hcounts
      split at hcounts
      case isTrue hplan => exact ⟨hplan.1, hplan.2.2⟩
      case isFalse => cases hcounts
    have henough : (places g spec.rels start).card < turns := by omega
    obtain ⟨r, hr, hok, -⟩ := VarExpand.count_settles hplan.2 hplan.1 henough
    exact ⟨r, hr, hok⟩

/-- Two nodes, with an edge from either to the other. -/
def circle : Graph where
  neighbors id row _ := if id = 0 ∧ row < 2 then [(1 - row, 0)] else []
  rows := 2
  lt_rows id row backwards x hx := by
    split at hx
    · rw [List.mem_singleton.1 hx]
      omega
    · exact absurd hx List.not_mem_nil

theorem mirrored_circle : Meeting.Mirrored circle := by
  intro id src dst ord
  simp only [circle, List.mem_ite_nil_right, List.mem_singleton, Prod.mk.injEq]
  omega

/-- One shortest path of one hop or more. -/
def oneOrMore : VarExpand Unit :=
  VarExpand.compile
    { rels := [⟨0, 0, 0, false⟩]
      direction := .out
      toTables := [0]
      min := 1
      max := none
      mode := .trail
      gate _ := .ok true
      rels_by_id := by simp }
    (some .anyShortest) none 2

/-- The trail around the circle is not answered. -/
theorem return_is_missed :
    (oneOrMore.next circle (0, 0) 3).run =
        some (.ok ⟨[(0, 1)], [[(⟨0, 0, 1, 0⟩, (0, 1))]]⟩) ∧
      (oneOrMore.count circle (0, 0) 3).run = some (.ok 1) ∧
      ¬ oneOrMore.Answers circle (0, 0) [[(⟨0, 0, 1, 0⟩, (0, 1))]] := by
  refine ⟨rfl, rfl, fun h => ?_⟩
  obtain ⟨-, -, hall, -⟩ := (h (0, 0)).1 fun dsts hdsts => nomatch hdsts
  have hout : Takes circle oneOrMore.toVarSpec (0, 0) ⟨0, 0, 1, 0⟩ (0, 1) := by
    rw [Takes]
    decide
  have hback : Takes circle oneOrMore.toVarSpec (0, 1) ⟨0, 1, 0, 0⟩ (0, 0) := by
    rw [Takes]
    decide
  have hround : Admitted circle oneOrMore.toVarSpec (0, 0)
      [(⟨0, 1, 0, 0⟩, (0, 0)), (⟨0, 0, 1, 0⟩, (0, 1))] := by
    refine ⟨⟨⟨trivial, hout⟩, hback⟩, ?_, by decide, (fun m hm => nomatch hm), by decide⟩
    change (edges _).Nodup
    decide
  have hpos : 0 < admitted circle oneOrMore.toVarSpec (0, 0) (0, 0)
      [(⟨0, 1, 0, 0⟩, (0, 0)), (⟨0, 0, 1, 0⟩, (0, 1))] := admitted_pos.2 ⟨hround, rfl⟩
  rw [← hall (by decide)] at hpos
  exact absurd hpos (by decide)

/-- From the other node of the circle as well, it is the trail around it that is missed. -/
theorem varExpand_answers_circle : ∃ enough, ∀ turns ≥ enough,
    (∃ r, (oneOrMore.next circle (0, 1) turns).run = some r ∧ ∀ out, r = .ok out →
      out.far = out.trails.map (ended (0, 1)) ∧
        (oneOrMore.Answers circle (0, 1) out.trails ↔ ¬ oneOrMore.Misses circle (0, 1))) ∧
    (oneOrMore.counting.counts = true →
      ∃ r, (oneOrMore.count circle (0, 1) turns).run = some r ∧ ∀ total, r = .ok total →
        ((∃ paths, oneOrMore.Answers circle (0, 1) paths ∧ total = paths.length) ↔
          ¬ oneOrMore.Misses circle (0, 1) ∧
            ∀ paths, oneOrMore.Answers circle (0, 1) paths → paths.length < 2 ^ 64)) :=
  @varExpand_answers_iff Unit circle mirrored_circle _ _ _ _ oneOrMore rfl
    (List.nodup_singleton 0) Nat.one_pos (fun hmode => nomatch hmode) (0, 1)

end Zu.Query
