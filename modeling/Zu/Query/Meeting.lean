import Zu.Query.Shortest

/-!
# The meeting search

The path of the fewest hops between two nodes that are both given, searched from either: two
frontiers grow towards each other and the smaller one moves each round. What the backward side
walks are the hops of the pattern read from the other end.
-/

namespace Zu.Query

namespace Meeting

open Lib Lib.Walks

variable {ε : Type}

/-- `HalfSearch`: how each node was reached, which is by a hop and from a node but for the one
the side began at, and the frontier. -/
structure HalfSearch where
  seen : NodeAt → Option (ℕ × Option (Rel × NodeAt))
  frontier : List NodeAt
  depth : ℕ

def HalfSearch.start (node : NodeAt) : HalfSearch :=
  ⟨Function.update (fun _ => none) node (some (0, none)), [node], 0⟩

/-- What a round writes: the nodes of the side that moves, its next frontier, and the best
meeting. -/
structure Growth where
  seen : NodeAt → Option (ℕ × Option (Rel × NodeAt))
  next : List NodeAt
  best : Option (ℕ × NodeAt)

/-- The best meeting, where a node is reached that the other side may have reached. -/
def meet (spec : VarSpec ε) (far : HalfSearch) (depth : ℕ) (best : Option (ℕ × NodeAt))
    (node : NodeAt) : Option (ℕ × NodeAt) :=
  match far.seen node with
  | none => best
  | some (other, _) =>
      let len := depth + other
      if spec.max.all (fun m => decide (len ≤ m)) && best.all fun b => decide (len < b.1) then
        some (len, node)
      else best

/-- What a round does with a hop. -/
def Growth.visit (spec : VarSpec ε) (far : HalfSearch) (depth : ℕ) (here : NodeAt) (gr : Growth)
    (hop : Hop) : Growth :=
  if (gr.seen hop.2).isSome then gr
  else
    ⟨Function.update gr.seen hop.2 (some (depth, some (hop.1, here))), gr.next ++ [hop.2],
      meet spec far depth gr.best hop.2⟩

/-- A side moves: every hop of every node of its frontier. -/
def grow (g : Graph) (spec : VarSpec ε) (direction : RelDirection) (near far : HalfSearch)
    (best : Option (ℕ × NodeAt)) : Timed ε Growth :=
  near.frontier.foldlM (fun gr here => do
    let hops ← Timed.of (hopEdges g spec.rels direction spec.gate here)
    return hops.foldl (Growth.visit spec far (near.depth + 1) here) gr) ⟨near.seen, [], best⟩

/-- Both sides, and the best meeting so far. -/
structure Search where
  fwd : HalfSearch
  bwd : HalfSearch
  best : Option (ℕ × NodeAt)

def Search.over (spec : VarSpec ε) (st : Search) : Bool :=
  st.best.any (fun b => decide (b.1 ≤ st.fwd.depth + st.bwd.depth)) ||
    st.fwd.frontier.isEmpty || st.bwd.frontier.isEmpty ||
    spec.max.any fun m => decide (m < st.fwd.depth + st.bwd.depth + 1)

/-- The side with the smaller frontier moves. -/
def Search.move (g : Graph) (spec : VarSpec ε) (st : Search) : Timed ε Search :=
  if st.fwd.frontier.length ≤ st.bwd.frontier.length then do
    let gr ← grow g spec spec.direction st.fwd st.bwd st.best
    return ⟨⟨gr.seen, gr.next, st.fwd.depth + 1⟩, st.bwd, gr.best⟩
  else do
    let gr ← grow g spec spec.direction.flip st.bwd st.fwd st.best
    return ⟨st.fwd, ⟨gr.seen, gr.next, st.bwd.depth + 1⟩, gr.best⟩

/-- The rounds, cut off after so many. -/
def searchFrom (g : Graph) (spec : VarSpec ε) : ℕ → Search → Timed ε Search
  | 0, _ => Timed.cut
  | turns + 1, st =>
      if st.over spec then return st
      else do
        let st ← st.move g spec
        searchFrom g spec turns st

/-- The hops back from a node to where the forward side began, the one that reached it
first. -/
def readBack (seen : NodeAt → Option (ℕ × Option (Rel × NodeAt))) : ℕ → NodeAt → List Hop
  | 0, _ => []
  | hops + 1, node =>
      match seen node with
      | some (_, some (rel, prev)) => (rel, node) :: readBack seen hops prev
      | _ => []

/-- The hops on from a node to where the backward side began, behind those of a chain. -/
def readOn (seen : NodeAt → Option (ℕ × Option (Rel × NodeAt))) :
    ℕ → NodeAt → List Hop → List Hop
  | 0, _, chain => chain
  | hops + 1, node, chain =>
      match seen node with
      | some (_, some (rel, next)) => readOn seen hops next ((rel, next) :: chain)
      | _ => chain

def pairShortest (g : Graph) (spec : VarSpec ε) (src dst : NodeAt) (turns : ℕ) :
    Timed ε (Option (List Hop)) :=
  if src = dst then return some []
  else do
    let st ← searchFrom g spec turns ⟨HalfSearch.start src, HalfSearch.start dst, none⟩
    return st.best.map fun b =>
      readOn st.bwd.seen st.bwd.depth b.2 (readBack st.fwd.seen st.fwd.depth b.2)

/-- The paths to far ends that are given, where a path that is too short answers none. -/
def pinned (g : Graph) (spec : VarSpec ε) (src : NodeAt) (dsts : List NodeAt) (turns : ℕ) :
    Timed ε (List (List Hop)) :=
  dsts.foldlM (fun far dst => do
    let chain ← pairShortest g spec src dst turns
    return match chain with
      | none => far
      | some chain => if chain.length < spec.min then far else far ++ [chain]) []

/-! ### A pattern read from the other end -/

/-- The lists storage keeps of an edge agree: it is in the forward list of the one end if and
only if it is in the backward list of the other. -/
def Mirrored (g : Graph) : Prop :=
  ∀ id src dst ord, (dst, ord) ∈ g.neighbors id src false ↔ (src, ord) ∈ g.neighbors id dst true

theorem resolve_flip (d : RelDirection) (undirected : Bool) :
    d.flip.resolve undirected = (d.resolve undirected).map RelDirection.flip := by
  cases d <;> cases undirected <;> rfl

theorem walksOut_flip (d : RelDirection) : d.flip.walksOut = d.walksIn := by
  cases d <;> rfl

theorem walksIn_flip (d : RelDirection) : d.flip.walksIn = d.walksOut := by
  cases d <;> rfl

section

variable {g : Graph} {rels : List RelStep} {direction : RelDirection}

theorem mem_hopsOut {step : RelStep} {u v : NodeAt} {e : Rel} :
    (u.1 = step.fromTable ∧ (e, v) ∈ hopsOut g step u) ↔
      (e.dst, e.ord) ∈ g.neighbors step.id e.src false ∧ e.table = step.id ∧
        u = (step.fromTable, e.src) ∧ v = (step.toTable, e.dst) := by
  constructor
  · rintro ⟨hu, hmem⟩
    obtain ⟨x, hx, heq⟩ := List.mem_map.1 hmem
    cases heq
    exact ⟨hx, rfl, Prod.ext hu rfl, rfl⟩
  · rintro ⟨hmem, htable, rfl, rfl⟩
    refine ⟨rfl, List.mem_map.2 ⟨(e.dst, e.ord), hmem, ?_⟩⟩
    rw [← htable]

theorem mem_hopsIn {step : RelStep} {u v : NodeAt} {e : Rel} :
    (u.1 = step.toTable ∧ (e, v) ∈ hopsIn g step u) ↔
      (e.src, e.ord) ∈ g.neighbors step.id e.dst true ∧ e.table = step.id ∧
        u = (step.toTable, e.dst) ∧ v = (step.fromTable, e.src) := by
  constructor
  · rintro ⟨hu, hmem⟩
    obtain ⟨x, hx, heq⟩ := List.mem_map.1 hmem
    cases heq
    exact ⟨hx, rfl, Prod.ext hu rfl, rfl⟩
  · rintro ⟨hmem, htable, rfl, rfl⟩
    refine ⟨rfl, List.mem_map.2 ⟨(e.src, e.ord), hmem, ?_⟩⟩
    rw [← htable]

theorem mem_stepHops {step : RelStep} {u v : NodeAt} {e : Rel} :
    (e, v) ∈ stepHops g direction u step ↔ ∃ d, direction.resolve step.undirected = some d ∧
      ((d.walksOut = true ∧ u.1 = step.fromTable ∧ (e, v) ∈ hopsOut g step u) ∨
        (d.walksIn = true ∧ u.1 = step.toTable ∧ (e, v) ∈ hopsIn g step u)) := by
  rw [stepHops]
  cases direction.resolve step.undirected with
  | none => simp
  | some d =>
      rw [List.mem_append]
      constructor
      · rintro (h | h)
        · split at h
          case isTrue hwalks =>
            rw [Bool.and_eq_true, decide_eq_true_eq] at hwalks
            exact ⟨d, rfl, Or.inl ⟨hwalks.1, hwalks.2, h⟩⟩
          case isFalse => exact absurd h List.not_mem_nil
        · split at h
          case isTrue hwalks =>
            rw [Bool.and_eq_true, decide_eq_true_eq] at hwalks
            exact ⟨d, rfl, Or.inr ⟨hwalks.1, hwalks.2, h⟩⟩
          case isFalse => exact absurd h List.not_mem_nil
      · rintro ⟨d', hd, h⟩
        cases hd
        obtain ⟨hwalks, hu, h⟩ | ⟨hwalks, hu, h⟩ := h
        · left
          rw [if_pos (by simp [hwalks, hu])]
          exact h
        · right
          rw [if_pos (by simp [hwalks, hu])]
          exact h

/-- Read from the other end, a pattern walks the same edges the other way. -/
theorem mem_allHops_flip (hmirror : Mirrored g) {u v : NodeAt} {e : Rel} :
    (e, u) ∈ allHops g rels direction.flip v ↔ (e, v) ∈ allHops g rels direction u := by
  rw [allHops, allHops, List.mem_flatMap, List.mem_flatMap]
  refine exists_congr fun step => and_congr_right fun _ => ?_
  rw [mem_stepHops, mem_stepHops, resolve_flip]
  cases direction.resolve step.undirected with
  | none => simp
  | some d =>
      simp only [Option.map_some, Option.some.injEq, exists_eq_left', walksOut_flip, walksIn_flip,
        mem_hopsOut, mem_hopsIn]
      have hsame := hmirror step.id e.src e.dst e.ord
      constructor
      · rintro (⟨hd, hmem, htable, hv, hu⟩ | ⟨hd, hmem, htable, hv, hu⟩)
        · exact Or.inr ⟨hd, hsame.1 hmem, htable, hu, hv⟩
        · exact Or.inl ⟨hd, hsame.2 hmem, htable, hu, hv⟩
      · rintro (⟨hd, hmem, htable, hu, hv⟩ | ⟨hd, hmem, htable, hu, hv⟩)
        · exact Or.inr ⟨hd, hsame.1 hmem, htable, hv, hu⟩
        · exact Or.inl ⟨hd, hsame.2 hmem, htable, hv, hu⟩

theorem mem_passing_flip (hmirror : Mirrored g) {gate : Rel → Except ε Bool} {u v : NodeAt}
    {e : Rel} : (e, u) ∈ passing g rels direction.flip gate v ↔
      (e, v) ∈ passing g rels direction gate u := by
  rw [passing, passing, List.mem_filter, List.mem_filter, mem_allHops_flip hmirror]

end

/-! ### A side -/

section

variable {spec : VarSpec ε} {near far : HalfSearch}

/-- What a round has made of the hops it has looked at, which are listed with the nodes they
leave, where there was no meeting before. -/
structure Grown (spec : VarSpec ε) (near far : HalfSearch) (done : List (NodeAt × Hop))
    (gr : Growth) : Prop where
  old : ∀ v x, near.seen v = some x → gr.seen v = some x
  new : ∀ v, near.seen v = none → (gr.seen v = none ∧ ∀ x ∈ done, x.2.2 ≠ v) ∨
    ∃ x ∈ done, x.2.2 = v ∧ gr.seen v = some (near.depth + 1, some (x.2.1, x.1))
  next : ∀ v, v ∈ gr.next ↔ near.seen v = none ∧ ∃ x ∈ done, x.2.2 = v
  best_le : ∀ v ∈ gr.next, ∀ other from', far.seen v = some (other, from') →
    spec.Allows (near.depth + 1 + other) →
    ∃ b, gr.best = some b ∧ b.1 ≤ near.depth + 1 + other
  best_of : ∀ b, gr.best = some b → b.2 ∈ gr.next ∧ spec.Allows b.1 ∧
    ∃ other from', far.seen b.2 = some (other, from') ∧ b.1 = near.depth + 1 + other

theorem Grown.init : Grown spec near far [] ⟨near.seen, [], none⟩ where
  old _ _ h := h
  new v h := Or.inl ⟨h, fun _ hx => absurd hx List.not_mem_nil⟩
  next v := by simp
  best_le _ hv := absurd hv List.not_mem_nil
  best_of _ h := nomatch h

theorem allows_iff_all {n : ℕ} : spec.Allows n ↔ (spec.max.all fun m => decide (n ≤ m)) = true := by
  rw [VarSpec.Allows]
  cases h : spec.max with
  | none => simp
  | some m => simp

theorem meet_cases (depth : ℕ) (best : Option (ℕ × NodeAt)) (node : NodeAt) :
    (meet spec far depth best node = best ∧ ∀ other from', far.seen node = some (other, from') →
        spec.Allows (depth + other) → ∃ b, best = some b ∧ b.1 ≤ depth + other) ∨
      ∃ other from', far.seen node = some (other, from') ∧ spec.Allows (depth + other) ∧
        (∀ b, best = some b → depth + other < b.1) ∧
        meet spec far depth best node = some (depth + other, node) := by
  rw [meet]
  cases hseen : far.seen node with
  | none => exact Or.inl ⟨rfl, fun _ _ h => nomatch h⟩
  | some x =>
      obtain ⟨other, from'⟩ := x
      dsimp only
      split
      case isTrue hbetter =>
        rw [Bool.and_eq_true, ← allows_iff_all] at hbetter
        refine Or.inr ⟨other, from', rfl, hbetter.1, fun b hb => ?_, rfl⟩
        have hless := hbetter.2
        rw [hb] at hless
        simpa using hless
      case isFalse hworse =>
        refine Or.inl ⟨rfl, fun other' from'' heq hfits => ?_⟩
        cases heq
        rw [Bool.and_eq_true, ← allows_iff_all, not_and] at hworse
        have hnot := hworse hfits
        cases hbest : best with
        | none =>
            rw [hbest] at hnot
            exact absurd rfl hnot
        | some b =>
            rw [hbest] at hnot
            refine ⟨b, rfl, ?_⟩
            simpa using hnot

theorem Grown.visit {done : List (NodeAt × Hop)} {gr : Growth} (h : Grown spec near far done gr)
    (here : NodeAt) (hop : Hop) : Grown spec near far (done ++ [(here, hop)])
      (gr.visit spec far (near.depth + 1) here hop) := by
  rw [Growth.visit]
  split
  case isTrue hseen =>
    have hmet : near.seen hop.2 = none → ∃ x ∈ done, x.2.2 = hop.2 := by
      intro hnone
      obtain ⟨hnot, -⟩ | ⟨x, hx, heq, -⟩ := h.new hop.2 hnone
      · rw [hnot] at hseen
        cases hseen
      · exact ⟨x, hx, heq⟩
    have hsame : ∀ v, near.seen v = none →
        ((∃ x ∈ done ++ [(here, hop)], x.2.2 = v) ↔ ∃ x ∈ done, x.2.2 = v) := by
      intro v hv
      rw [Levels.exists_snoc]
      refine ⟨fun hx => hx.elim id ?_, Or.inl⟩
      rintro rfl
      exact hmet hv
    refine ⟨h.old, fun v hv => ?_, fun v => ?_, h.best_le, h.best_of⟩
    · obtain ⟨hnot, hnone⟩ | ⟨x, hx, hrest⟩ := h.new v hv
      · refine Or.inl ⟨hnot, fun x hx heq => ?_⟩
        obtain ⟨x, hx, heq⟩ := (hsame v hv).1 ⟨x, hx, heq⟩
        exact hnone x hx heq
      · exact Or.inr ⟨x, List.mem_append_left _ hx, hrest⟩
    · rw [h.next v]
      exact and_congr_right fun hv => (hsame v hv).symm
  case isFalse hunseen =>
    rw [Bool.not_eq_true, Option.isSome_eq_false_iff, Option.isNone_iff_eq_none] at hunseen
    have hnear : near.seen hop.2 = none := by
      rw [Option.eq_none_iff_forall_ne_some]
      intro x hx
      rw [h.old _ x hx] at hunseen
      cases hunseen
    have hnext : ∀ v, v ∈ gr.next ++ [hop.2] ↔
        near.seen v = none ∧ ∃ x ∈ done ++ [(here, hop)], x.2.2 = v := by
      intro v
      rw [Levels.exists_snoc, List.mem_append, List.mem_singleton, h.next v]
      constructor
      · rintro (⟨hv, hx⟩ | rfl)
        · exact ⟨hv, Or.inl hx⟩
        · exact ⟨hnear, Or.inr rfl⟩
      · rintro ⟨hv, hx | rfl⟩
        · exact Or.inl ⟨hv, hx⟩
        · exact Or.inr rfl
    have hmeet := @meet_cases ε spec far (near.depth + 1) gr.best hop.2
    refine ⟨fun v x hx => ?_, fun v hv => ?_, hnext, fun v hv other from' hfar hfits => ?_,
      fun b hb => ?_⟩
    · have hne : v ≠ hop.2 := fun heq => by
        rw [heq, hnear] at hx
        cases hx
      dsimp only
      rw [Function.update_of_ne hne]
      exact h.old v x hx
    · by_cases heq : v = hop.2
      · subst heq
        exact Or.inr ⟨(here, hop), by simp, rfl, Function.update_self _ _ _⟩
      · dsimp only
        rw [Function.update_of_ne heq]
        obtain ⟨hnot, hnone⟩ | ⟨x, hx, hrest⟩ := h.new v hv
        · refine Or.inl ⟨hnot, fun x hx => ?_⟩
          obtain hx | hx := List.mem_append.1 hx
          · exact hnone x hx
          · rw [List.mem_singleton.1 hx]
            exact fun h => heq h.symm
        · exact Or.inr ⟨x, List.mem_append_left _ hx, hrest⟩
    · obtain ⟨hkept, hbound⟩ | ⟨other', from'', hfar', -, hless, hbest⟩ := hmeet
      · dsimp only
        rw [hkept]
        obtain hv | hv := List.mem_append.1 hv
        · exact h.best_le v hv other from' hfar hfits
        · rw [List.mem_singleton.1 hv] at hfar
          exact hbound other from' hfar hfits
      · dsimp only
        rw [hbest]
        refine ⟨_, rfl, ?_⟩
        obtain hv | hv := List.mem_append.1 hv
        · obtain ⟨b, hb, hle⟩ := h.best_le v hv other from' hfar hfits
          exact (hless b hb).le.trans hle
        · rw [List.mem_singleton.1 hv, hfar'] at hfar
          cases hfar
          exact Nat.le_refl _
    · obtain ⟨hkept, -⟩ | ⟨other, from', hfar, hfits, -, hbest⟩ := hmeet
      · dsimp only at hb
        rw [hkept] at hb
        obtain ⟨hmem, hrest⟩ := h.best_of b hb
        exact ⟨List.mem_append_left _ hmem, hrest⟩
      · dsimp only at hb
        rw [hbest] at hb
        cases hb
        exact ⟨by simp, hfits, other, from', hfar, rfl⟩

def along (hops : NodeAt → List Hop) (nodes : List NodeAt) : List (NodeAt × Hop) :=
  nodes.flatMap fun u => (hops u).map (Prod.mk u)

theorem mem_along {hops : NodeAt → List Hop} {nodes : List NodeAt} {x : NodeAt × Hop} :
    x ∈ along hops nodes ↔ x.1 ∈ nodes ∧ x.2 ∈ hops x.1 := by
  rw [along, List.mem_flatMap]
  constructor
  · rintro ⟨u, hu, hx⟩
    obtain ⟨hop, hhop, rfl⟩ := List.mem_map.1 hx
    exact ⟨hu, hhop⟩
  · rintro ⟨hu, hhop⟩
    exact ⟨x.1, hu, List.mem_map.2 ⟨x.2, hhop, rfl⟩⟩

theorem grow_settles {g : Graph} {direction : RelDirection} :
    Settles (grow g spec direction near far none) True
      (Grown spec near far (along (passing g spec.rels direction spec.gate) near.frontier)) := by
  have hhops : ∀ (here : NodeAt) (hops : List Hop) (done : List (NodeAt × Hop)) (gr : Growth),
      Grown spec near far done gr → Grown spec near far (done ++ hops.map (Prod.mk here))
        (hops.foldl (Growth.visit spec far (near.depth + 1) here) gr) := by
    intro here hops
    induction hops with
    | nil =>
        intro done gr h
        rw [List.map_nil, List.append_nil]
        exact h
    | cons hop hops ih =>
        intro done gr h
        rw [List.map_cons, List.append_cons, List.foldl_cons]
        exact ih _ _ (h.visit here hop)
  rw [grow]
  apply Settles.foldlM (fun us => Grown spec near far
    (along (passing g spec.rels direction spec.gate) us)) Grown.init
  intro done here _ gr h
  have hedges : Settles (Timed.of (hopEdges g spec.rels direction spec.gate here)) True
      fun hops => hops = passing g spec.rels direction spec.gate here :=
    Settles.of (fun hops heq => (keepPassing_ok heq).1) fun _ _ => trivial
  apply hedges.bind
  rintro hops rfl
  apply Settles.pure
  rw [along, List.flatMap_append, List.flatMap_singleton]
  exact hhops here _ _ gr h

end

/-- A side has reached the nodes within its depth, each by a hop of the fewest there are. -/
structure HalfReached (step : NodeAt → Rel → NodeAt → Prop) (root : NodeAt) (half : HalfSearch) :
    Prop where
  level : ∀ v l, (∃ from', half.seen v = some (l, from')) ↔
    l ≤ half.depth ∧ Level (fun u v => ∃ e, step u e v) (· = root) l v
  origin : ∀ v l, half.seen v = some (l, none) → v = root
  link : ∀ v l e u, half.seen v = some (l, some (e, u)) → step u e v ∧
    ∃ k from', half.seen u = some (k, from') ∧ l = k + 1
  frontier : ∀ v, v ∈ half.frontier ↔
    Level (fun u v => ∃ e, step u e v) (· = root) half.depth v

section

variable {step : NodeAt → Rel → NodeAt → Prop} {root : NodeAt} {near : HalfSearch}

theorem HalfReached.start : HalfReached step root (HalfSearch.start root) := by
  have hseen : ∀ v, (HalfSearch.start root).seen v = if v = root then some (0, none) else none := by
    intro v
    simp only [HalfSearch.start, Function.update_apply]
  constructor
  · intro v l
    rw [hseen]
    constructor
    · rintro ⟨from', h⟩
      split at h
      case isTrue heq =>
        cases h
        exact ⟨Nat.le_refl 0, level_zero.2 heq⟩
      case isFalse => cases h
    · rintro ⟨hl, hlevel⟩
      obtain rfl : l = 0 := Nat.le_zero.1 hl
      exact ⟨none, if_pos (level_zero.1 hlevel)⟩
  · intro v l h
    rw [hseen] at h
    split at h
    case isTrue heq => exact heq
    case isFalse => cases h
  · intro v l e u h
    rw [hseen] at h
    split at h <;> cases h
  · intro v
    rw [show (HalfSearch.start root).depth = 0 from rfl, level_zero]
    exact List.mem_singleton

theorem HalfReached.move (h : HalfReached step root near) {spec : VarSpec ε} {far : HalfSearch}
    {hops : NodeAt → List Hop} (hstep : ∀ u e v, (e, v) ∈ hops u ↔ step u e v) {gr : Growth}
    (hgr : Grown spec near far (along hops near.frontier) gr) :
    HalfReached step root ⟨gr.seen, gr.next, near.depth + 1⟩ := by
  have hwithin : ∀ v, near.seen v = none ↔
      ¬ Within (fun u v => ∃ e, step u e v) (· = root) near.depth v := by
    intro v
    rw [within_iff_level]
    constructor
    · rintro hv ⟨l, hl⟩
      obtain ⟨from', hsome⟩ := (h.level v l).2 hl
      rw [hv] at hsome
      cases hsome
    · intro hv
      rw [Option.eq_none_iff_forall_ne_some]
      rintro ⟨l, from'⟩ hsome
      exact hv ⟨l, (h.level v l).1 ⟨from', hsome⟩⟩
  have hmet : ∀ v, (∃ x ∈ along hops near.frontier, x.2.2 = v) ↔
      ∃ u, Level (fun u v => ∃ e, step u e v) (· = root) near.depth u ∧ ∃ e, step u e v := by
    intro v
    constructor
    · rintro ⟨x, hx, rfl⟩
      obtain ⟨hu, hhop⟩ := mem_along.1 hx
      exact ⟨x.1, (h.frontier _).1 hu, x.2.1, (hstep _ _ _).1 hhop⟩
    · rintro ⟨u, hu, e, he⟩
      exact ⟨(u, e, v), mem_along.2 ⟨(h.frontier u).2 hu, (hstep _ _ _).2 he⟩, rfl⟩
  have hnew : ∀ v, (near.seen v = none ∧ ∃ x ∈ along hops near.frontier, x.2.2 = v) ↔
      Level (fun u v => ∃ e, step u e v) (· = root) (near.depth + 1) v := by
    intro v
    rw [hmet, level_succ, hwithin, and_comm]
  have hcases : ∀ v l from', gr.seen v = some (l, from') →
      near.seen v = some (l, from') ∨ (near.seen v = none ∧ ∃ x ∈ along hops near.frontier,
        x.2.2 = v ∧ l = near.depth + 1 ∧ from' = some (x.2.1, x.1)) := by
    intro v l from' hv
    cases hnear : near.seen v with
    | some x =>
        rw [hgr.old v x hnear] at hv
        exact Or.inl hv
    | none =>
        obtain ⟨hnot, -⟩ | ⟨x, hx, heq, hsome⟩ := hgr.new v hnear
        · rw [hnot] at hv
          cases hv
        · rw [hsome] at hv
          cases hv
          exact Or.inr ⟨rfl, x, hx, heq, rfl, rfl⟩
  constructor
  · intro v l
    constructor
    · rintro ⟨from', hv⟩
      obtain hold | ⟨hnone, x, hx, heq, rfl, -⟩ := hcases v l from' hv
      · obtain ⟨hle, hlevel⟩ := (h.level v l).1 ⟨from', hold⟩
        exact ⟨hle.trans (Nat.le_succ _), hlevel⟩
      · exact ⟨Nat.le_refl _, (hnew v).1 ⟨hnone, x, hx, heq⟩⟩
    · rintro ⟨hle, hlevel⟩
      obtain hlt | heq := Nat.lt_or_eq_of_le hle
      · obtain ⟨from', hsome⟩ := (h.level v l).2 ⟨Nat.le_of_lt_succ hlt, hlevel⟩
        exact ⟨from', hgr.old v _ hsome⟩
      · rw [heq] at hlevel
        obtain ⟨hnone, x, hx, hv⟩ := (hnew v).2 hlevel
        obtain ⟨-, hnot⟩ | ⟨x', -, -, hsome⟩ := hgr.new v hnone
        · exact absurd hv (hnot x hx)
        · rw [heq]
          exact ⟨_, hsome⟩
  · intro v l hv
    obtain hold | ⟨-, x, -, -, -, heq⟩ := hcases v l none hv
    · exact h.origin v l hold
    · cases heq
  · intro v l e u hv
    obtain hold | ⟨-, x, hx, rfl, rfl, heq⟩ := hcases v l _ hv
    · obtain ⟨hs, k, from', hk, hl⟩ := h.link v l e u hold
      exact ⟨hs, k, from', hgr.old u _ hk, hl⟩
    · cases heq
      obtain ⟨hu, hhop⟩ := mem_along.1 hx
      obtain ⟨from', hk⟩ := (h.level x.1 near.depth).2 ⟨Nat.le_refl _, (h.frontier _).1 hu⟩
      exact ⟨(hstep _ _ _).1 hhop, near.depth, from', hgr.old _ _ hk, rfl⟩
  · intro v
    rw [hgr.next, hnew]

/-- The hops read back are a walk to the node, of as many hops as its level. -/
theorem HalfReached.readBack (h : HalfReached step root near) {l : ℕ} {v : NodeAt}
    {from' : Option (Rel × NodeAt)} (hv : near.seen v = some (l, from')) {hops : ℕ} (hl : l ≤ hops) :
    IsWalk step root (readBack near.seen hops v) ∧ ended root (readBack near.seen hops v) = v ∧
      (readBack near.seen hops v).length = l := by
  induction hops generalizing l v from' with
  | zero =>
      obtain rfl : l = 0 := Nat.le_zero.1 hl
      obtain rfl := level_zero.1 ((h.level v 0).1 ⟨from', hv⟩).2
      exact ⟨trivial, rfl, rfl⟩
  | succ hops ih =>
      cases from' with
      | none =>
          obtain rfl := h.origin v l hv
          obtain rfl : l = 0 := level_unique ((h.level v l).1 ⟨none, hv⟩).2 (level_zero.2 rfl)
          rw [Meeting.readBack, hv]
          exact ⟨trivial, rfl, rfl⟩
      | some x =>
          obtain ⟨e, u⟩ := x
          obtain ⟨hs, k, from'', hk, rfl⟩ := h.link v l e u hv
          obtain ⟨hwalk, hended, hlen⟩ := ih hk (Nat.le_of_succ_le_succ hl)
          rw [Meeting.readBack, hv]
          refine ⟨⟨hwalk, ?_⟩, rfl, congrArg Nat.succ hlen⟩
          rw [hended]
          exact hs

/-- The hops read on behind a walk to the node are a walk to where the side began. -/
theorem HalfReached.readOn {step' : NodeAt → Rel → NodeAt → Prop} {dst src : NodeAt}
    (h : HalfReached step' dst near) (hback : ∀ u e v, step' v e u ↔ step u e v) {l : ℕ} {v : NodeAt}
    {from' : Option (Rel × NodeAt)} (hv : near.seen v = some (l, from')) {hops : ℕ} (hl : l ≤ hops)
    {chain : List Hop} (hchain : IsWalk step src chain) (hended : ended src chain = v) :
    IsWalk step src (readOn near.seen hops v chain) ∧
      ended src (readOn near.seen hops v chain) = dst ∧
      (readOn near.seen hops v chain).length = chain.length + l := by
  induction hops generalizing l v from' chain with
  | zero =>
      obtain rfl : l = 0 := Nat.le_zero.1 hl
      obtain rfl := level_zero.1 ((h.level v 0).1 ⟨from', hv⟩).2
      exact ⟨hchain, hended, rfl⟩
  | succ hops ih =>
      cases from' with
      | none =>
          obtain rfl := h.origin v l hv
          obtain rfl : l = 0 := level_unique ((h.level v l).1 ⟨none, hv⟩).2 (level_zero.2 rfl)
          rw [Meeting.readOn, hv]
          exact ⟨hchain, hended, rfl⟩
      | some x =>
          obtain ⟨e, u⟩ := x
          obtain ⟨hs, k, from'', hk, rfl⟩ := h.link v l e u hv
          have hnext : IsWalk step src ((e, u) :: chain) := by
            refine ⟨hchain, ?_⟩
            rw [hended]
            exact (hback v e u).1 hs
          obtain ⟨hwalk, hend, hlen⟩ := ih hk (Nat.le_of_succ_le_succ hl) hnext rfl
          rw [Meeting.readOn, hv]
          refine ⟨hwalk, hend, hlen.trans ?_⟩
          rw [List.length_cons]
          omega

end

/-! ### The search -/

/-- The step read from the other end. -/
def flipped (spec : VarSpec ε) : VarSpec ε := { spec with direction := spec.direction.flip }

section

variable {g : Graph} {spec : VarSpec ε} {src dst : NodeAt}

theorem takes_flipped (hmirror : Mirrored g) (u : NodeAt) (e : Rel) (v : NodeAt) :
    Takes g (flipped spec) v e u ↔ Takes g spec u e v := mem_passing_flip hmirror

theorem adjacent_flipped (hmirror : Mirrored g) :
    Adjacent g (flipped spec) = fun v u => Adjacent g spec u v := by
  funext v u
  exact propext (exists_congr fun e => takes_flipped hmirror u e v)

variable (g spec src dst) in
/-- What the search knows: what each side has reached, and, where the nodes are no further apart
than the sides are deep, a path between them of the fewest hops. -/
structure Searched (st : Search) : Prop where
  fwd : HalfReached (Takes g spec) src st.fwd
  bwd : HalfReached (Takes g (flipped spec)) dst st.bwd
  allows : spec.Allows (st.fwd.depth + st.bwd.depth)
  shortest : ∀ d, Level (Adjacent g spec) (· = src) d dst → d ≤ st.fwd.depth + st.bwd.depth →
    ∃ b, st.best = some b ∧ b.1 ≤ d
  best : ∀ b, st.best = some b → ∃ i j from' from'', st.fwd.seen b.2 = some (i, from') ∧
    st.bwd.seen b.2 = some (j, from'') ∧ b.1 = i + j

theorem Searched.init (hne : src ≠ dst) :
    Searched g spec src dst ⟨HalfSearch.start src, HalfSearch.start dst, none⟩ where
  fwd := HalfReached.start
  bwd := HalfReached.start
  allows m _ := Nat.zero_le m
  shortest d hd hle := by
    obtain rfl : d = 0 := Nat.le_zero.1 hle
    exact absurd (level_zero.1 hd).symm hne
  best _ h := nomatch h

theorem Searched.best_le {st : Search} (h : Searched g spec src dst st) {b : ℕ × NodeAt}
    (hb : st.best = some b) : b.1 ≤ st.fwd.depth + st.bwd.depth := by
  obtain ⟨i, j, from', from'', hi, hj, heq⟩ := h.best b hb
  rw [heq]
  exact Nat.add_le_add ((h.fwd.level _ _).1 ⟨_, hi⟩).1 ((h.bwd.level _ _).1 ⟨_, hj⟩).1

/-- A search that goes on has met nowhere, has a frontier on either side, and has hops left. -/
theorem Searched.going {st : Search} (h : Searched g spec src dst st)
    (hon : st.over spec = false) : st.best = none ∧ st.fwd.frontier ≠ [] ∧
      st.bwd.frontier ≠ [] ∧ spec.Allows (st.fwd.depth + st.bwd.depth + 1) := by
  simp only [Search.over, Bool.or_eq_false_iff] at hon
  obtain ⟨⟨⟨hbest, hfwd⟩, hbwd⟩, hmax⟩ := hon
  refine ⟨?_, by simpa using hfwd, by simpa using hbwd, fun m hm => ?_⟩
  · cases hb : st.best with
    | none => rfl
    | some b =>
        rw [hb] at hbest
        exact absurd (h.best_le hb) (by simpa using hbest)
  · rw [hm] at hmax
    simpa using hmax

theorem Searched.move (hmirror : Mirrored g) {st : Search} (h : Searched g spec src dst st)
    (hon : st.over spec = false) :
    Settles (st.move g spec) True fun st' => Searched g spec src dst st' ∧
      ((st'.fwd.depth = st.fwd.depth + 1 ∧ st'.bwd.depth = st.bwd.depth) ∨
        (st'.fwd.depth = st.fwd.depth ∧ st'.bwd.depth = st.bwd.depth + 1)) := by
  obtain ⟨hnone, -, -, hroom⟩ := h.going hon
  have hapart : ∀ d, Level (Adjacent g spec) (· = src) d dst →
      ¬ d ≤ st.fwd.depth + st.bwd.depth := by
    intro d hd hle
    obtain ⟨b, hb, -⟩ := h.shortest d hd hle
    rw [hnone] at hb
    cases hb
  rw [Search.move, hnone]
  split
  · apply Settles.bind grow_settles
    intro gr hgr
    apply Settles.pure
    have hfwd := h.fwd.move (fun _ _ _ => Iff.rfl) hgr
    refine ⟨⟨hfwd, h.bwd, ?_, fun d hd hle => ?_, fun b hb => ?_⟩, Or.inl ⟨rfl, rfl⟩⟩
    · rw [Nat.add_right_comm]
      exact hroom
    · have hsum : d = st.fwd.depth + 1 + st.bwd.depth := by
        have := hapart d hd
        dsimp only at hle
        omega
      subst hsum
      obtain ⟨w, hw, hback⟩ := hd.split
      rw [← adjacent_flipped hmirror] at hback
      obtain ⟨from', hseen⟩ := (h.bwd.level w _).2 ⟨Nat.le_refl _, hback⟩
      apply hgr.best_le w ((hfwd.frontier w).2 hw) _ from' hseen
      rw [Nat.add_right_comm]
      exact hroom
    · obtain ⟨hmem, -, other, from', hseen, heq⟩ := hgr.best_of b hb
      obtain ⟨from'', hnear⟩ := (hfwd.level b.2 _).2 ⟨Nat.le_refl _, (hfwd.frontier _).1 hmem⟩
      exact ⟨_, other, from'', from', hnear, hseen, heq⟩
  · apply Settles.bind grow_settles
    intro gr hgr
    apply Settles.pure
    have hbwd := h.bwd.move (fun _ _ _ => Iff.rfl) hgr
    refine ⟨⟨h.fwd, hbwd, ?_, fun d hd hle => ?_, fun b hb => ?_⟩, Or.inr ⟨rfl, rfl⟩⟩
    · rw [← Nat.add_assoc]
      exact hroom
    · have hsum : d = st.fwd.depth + (st.bwd.depth + 1) := by
        have := hapart d hd
        dsimp only at hle
        omega
      subst hsum
      obtain ⟨w, hw, hback⟩ := hd.split
      rw [← adjacent_flipped hmirror] at hback
      obtain ⟨from', hseen⟩ := (h.fwd.level w _).2 ⟨Nat.le_refl _, hw⟩
      obtain ⟨b, hb, hle⟩ := hgr.best_le w ((hbwd.frontier w).2 hback) _ from' hseen (by
        rw [Nat.add_comm, ← Nat.add_assoc]
        exact hroom)
      exact ⟨b, hb, by omega⟩
    · obtain ⟨hmem, -, other, from', hseen, heq⟩ := hgr.best_of b hb
      obtain ⟨from'', hnear⟩ := (hbwd.level b.2 _).2 ⟨Nat.le_refl _, (hbwd.frontier _).1 hmem⟩
      exact ⟨other, _, from', from'', hseen, hnear, heq.trans (Nat.add_comm _ _)⟩

theorem searchFrom_settles (hmirror : Mirrored g) {turns : ℕ} {st : Search}
    (h : Searched g spec src dst st) (hfwd : st.fwd.depth ≤ (places g spec.rels src).card)
    (hbwd : st.bwd.depth ≤ (places g spec.rels dst).card)
    (hturns : (places g spec.rels src).card + (places g spec.rels dst).card <
      turns + (st.fwd.depth + st.bwd.depth)) :
    Settles (searchFrom g spec turns st) True fun st' =>
      Searched g spec src dst st' ∧ st'.over spec = true := by
  induction turns generalizing st with
  | zero => omega
  | succ turns ih =>
      rw [searchFrom]
      split
      case isTrue hover => exact Settles.pure ⟨h, hover⟩
      case isFalse hon =>
        rw [Bool.not_eq_true] at hon
        obtain ⟨-, hsome, hsome', -⟩ := h.going hon
        obtain ⟨v, hv⟩ := List.exists_mem_of_ne_nil _ hsome
        obtain ⟨w, hw⟩ := List.exists_mem_of_ne_nil _ hsome'
        have hless : st.fwd.depth < (places g spec.rels src).card :=
          level_lt_card (fun _ _ => level_mem_places) ((h.fwd.frontier v).1 hv)
        have hless' : st.bwd.depth < (places g (flipped spec).rels dst).card :=
          level_lt_card (fun _ _ => level_mem_places) ((h.bwd.frontier w).1 hw)
        have hsame : (places g (flipped spec).rels dst).card = (places g spec.rels dst).card := rfl
        apply Settles.bind (h.move hmirror hon)
        rintro st' ⟨h', hdepth⟩
        apply ih h' <;> omega

/-- The search between two nodes comes to its end, with a path of the fewest hops where there is
one that is not too long. -/
theorem pairShortest_settles (hmirror : Mirrored g) {turns : ℕ}
    (hturns : (places g spec.rels src).card + (places g spec.rels dst).card < turns) :
    Settles (pairShortest g spec src dst turns) True fun found =>
      (∀ p, found = some p → IsWalk (Takes g spec) src p ∧ ended src p = dst ∧
        Level (Adjacent g spec) (· = src) p.length dst ∧ spec.Allows p.length) ∧
      (found = none → ∀ d, Level (Adjacent g spec) (· = src) d dst → ¬ spec.Allows d) := by
  rw [pairShortest]
  split
  case isTrue heq =>
    apply Settles.pure
    refine ⟨fun p hp => ?_, fun h => nomatch h⟩
    cases hp
    exact ⟨trivial, heq, level_zero.2 heq.symm, fun m _ => Nat.zero_le m⟩
  case isFalse hne =>
    apply Settles.bind (searchFrom_settles hmirror (Searched.init hne) (Nat.zero_le _)
      (Nat.zero_le _) hturns)
    rintro st ⟨h, hover⟩
    apply Settles.pure
    constructor
    · intro p hp
      obtain ⟨b, hb, rfl⟩ := Option.map_eq_some_iff.1 hp
      obtain ⟨i, j, from', from'', hi, hj, hsum⟩ := h.best b hb
      obtain ⟨hwalk, hended, hlen⟩ := h.fwd.readBack hi ((h.fwd.level _ _).1 ⟨_, hi⟩).1
      obtain ⟨hwalk', hended', hlen'⟩ := h.bwd.readOn (fun u e v => takes_flipped hmirror u e v) hj
        ((h.bwd.level _ _).1 ⟨_, hj⟩).1 hwalk hended
      rw [hlen, ← hsum] at hlen'
      refine ⟨hwalk', hended', ?_, ?_⟩
      · obtain ⟨d, hd, hlevel⟩ := (hops_iff.2 ⟨_, hwalk', hlen', hended'⟩).exists_level
        obtain ⟨b', hb', hle⟩ := h.shortest d hlevel (hd.trans (h.best_le hb))
        rw [hb] at hb'
        cases hb'
        rw [hlen', Nat.le_antisymm hle hd]
        exact hlevel
      · rw [hlen']
        exact fun m hm => (h.best_le hb).trans (h.allows m hm)
    · intro hnone d hd hfits
      rw [Option.map_eq_none_iff] at hnone
      have hdeep : d ≤ st.fwd.depth + st.bwd.depth := by
        simp only [Search.over, Bool.or_eq_true, hnone, Option.any_none, Bool.false_eq_true,
          false_or, List.isEmpty_iff] at hover
        obtain (hempty | hempty) | hmax := hover
        · by_contra hlt
          obtain ⟨u, hu⟩ := exists_level hd st.fwd.depth (by omega)
          have hmem := (h.fwd.frontier u).2 hu
          rw [hempty] at hmem
          exact absurd hmem List.not_mem_nil
        · by_contra hlt
          have hback := level_back.1 hd
          rw [← adjacent_flipped hmirror] at hback
          obtain ⟨u, hu⟩ := exists_level hback st.bwd.depth (by omega)
          have hmem := (h.bwd.frontier u).2 hu
          rw [hempty] at hmem
          exact absurd hmem List.not_mem_nil
        · cases hm : spec.max with
          | none =>
              rw [hm] at hmax
              cases hmax
          | some m =>
              rw [hm] at hmax
              exact (hfits m hm).trans (Nat.le_of_lt_succ (of_decide_eq_true hmax))
      obtain ⟨b, hb, -⟩ := h.shortest d hd hdeep
      rw [hnone] at hb
      cases hb

end

end Meeting

end Zu.Query
