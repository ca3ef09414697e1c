import Zu.Query.VarLength

/-!
# Hop levels

The breadth-first prepass behind the shortest selectors: the least hops to every node within
the hop window, the hop that discovered it, and, where the caller asks for it, the levelled
graph itself, with how many shortest paths reach each node.
-/

namespace Zu.Query

namespace Levels

open Lib Lib.Walks

variable {ε : Type}

/-- What `hop_levels` writes. A map is what it answers; `order` has the nodes in the order they
were discovered, which are those with a level, and `next` is the frontier. -/
structure HopLevels where
  levels : NodeAt → Option ℕ
  parents : NodeAt → Option (Rel × NodeAt)
  order : List NodeAt
  steps : Steps
  paths : NodeAt → ℕ
  next : List NodeAt

/-- `saturating_add` of `u64`. -/
def satAdd (a b : ℕ) : ℕ := min (a + b) (2 ^ 64 - 1)

/-- A hop of the levelled graph is noted, with the paths it brings to the far node. -/
def HopLevels.note (bfs : HopLevels) (here : NodeAt) (hop : Hop) : HopLevels :=
  { bfs with
    paths := Function.update bfs.paths hop.2 (satAdd (bfs.paths hop.2) (bfs.paths here))
    steps := Function.update bfs.steps here (bfs.steps here ++ [hop]) }

def HopLevels.discover (bfs : HopLevels) (depth : ℕ) (here : NodeAt) (hop : Hop) : HopLevels :=
  { bfs with
    levels := Function.update bfs.levels hop.2 (some depth)
    parents := Function.update bfs.parents hop.2 (some (hop.1, here))
    order := bfs.order ++ [hop.2]
    next := bfs.next ++ [hop.2] }

/-- What `hop_levels` does with a hop. -/
def HopLevels.visit (dag : Bool) (depth : ℕ) (here : NodeAt) (bfs : HopLevels) (hop : Hop) :
    HopLevels :=
  let seen := bfs.levels hop.2
  let bfs := if dag && decide (seen.getD depth = depth) then bfs.note here hop else bfs
  if seen.isSome then bfs else bfs.discover depth here hop

/-- A round: every hop of every node of the frontier, one level further out. -/
def HopLevels.round (g : Graph) (spec : VarSpec ε) (dag : Bool) (depth : ℕ) (bfs : HopLevels) :
    Timed ε HopLevels :=
  bfs.next.foldlM (fun bfs here => do
    let hops ← Timed.of (hopEdges g spec.rels spec.direction spec.gate here)
    return hops.foldl (HopLevels.visit dag depth here) bfs) { bfs with next := [] }

/-- The rounds, until the frontier is empty or the hops are used up. They are cut off after so
many. -/
def levelsFrom (g : Graph) (spec : VarSpec ε) (dag : Bool) :
    ℕ → ℕ → HopLevels → Timed ε HopLevels
  | 0, _, _ => Timed.cut
  | turns + 1, depth, bfs =>
      if bfs.next.isEmpty || spec.full depth then
        return bfs
      else do
        let bfs ← bfs.round g spec dag (depth + 1)
        levelsFrom g spec dag turns (depth + 1) bfs

def HopLevels.init (start : NodeAt) (dag : Bool) : HopLevels where
  levels := Function.update (fun _ => none) start (some 0)
  parents _ := none
  order := [start]
  steps _ := []
  paths := if dag then Function.update (fun _ => 0) start 1 else fun _ => 0
  next := [start]

def hopLevels (g : Graph) (spec : VarSpec ε) (start : NodeAt) (dag : Bool) (turns : ℕ) :
    Timed ε HopLevels :=
  levelsFrom g spec dag turns 0 (HopLevels.init start dag)

/-! ### A round -/

/-- The hops that were taken to a node, of those a round has looked at. -/
def hopsTo (v : NodeAt) (done : List (NodeAt × Hop)) : List (NodeAt × Hop) :=
  done.filter fun x => decide (x.2.2 = v)

/-- What a round has made of the hops it has looked at, which are listed with the nodes they
leave. -/
structure Round (dag : Bool) (depth : ℕ) (bfs₀ : HopLevels) (done : List (NodeAt × Hop))
    (bfs : HopLevels) : Prop where
  levels : ∀ v, bfs.levels v =
    (bfs₀.levels v).or (if ∃ x ∈ done, x.2.2 = v then some depth else none)
  next : ∀ v, v ∈ bfs.next ↔ bfs₀.levels v = none ∧ ∃ x ∈ done, x.2.2 = v
  nodup : bfs.next.Nodup
  order : bfs.order = bfs₀.order ++ bfs.next
  parents_old : ∀ v, bfs₀.levels v ≠ none → bfs.parents v = bfs₀.parents v
  parents_new : ∀ v ∈ bfs.next, ∃ x ∈ done, bfs.parents v = some (x.2.1, x.1) ∧ x.2.2 = v
  steps : dag = true → ∀ u, bfs.steps u = bfs₀.steps u ++
    (done.filter fun x => decide (x.1 = u ∧ bfs₀.levels x.2.2 = none)).map Prod.snd
  paths_old : dag = true → ∀ v, bfs₀.levels v ≠ none → bfs.paths v = bfs₀.paths v
  paths_new : dag = true → ∀ v, bfs₀.levels v = none →
    bfs.paths v = min ((hopsTo v done).map fun x => bfs₀.paths x.1).sum (2 ^ 64 - 1)

theorem Round.init {dag : Bool} {depth : ℕ} {bfs₀ : HopLevels}
    (hpaths : dag = true → ∀ v, bfs₀.levels v = none → bfs₀.paths v = 0) :
    Round dag depth bfs₀ [] { bfs₀ with next := [] } where
  levels v := by simp
  next v := by simp
  nodup := List.nodup_nil
  order := (List.append_nil _).symm
  parents_old _ _ := rfl
  parents_new _ hv := absurd hv List.not_mem_nil
  steps _ u := by simp
  paths_old _ _ _ := rfl
  paths_new hdag v hv := by simp [hopsTo, hpaths hdag v hv]

theorem satAdd_min (a b : ℕ) : satAdd (min a (2 ^ 64 - 1)) b = min (a + b) (2 ^ 64 - 1) := by
  rw [satAdd]
  omega

theorem exists_snoc {done : List (NodeAt × Hop)} {here v : NodeAt} {hop : Hop} :
    (∃ x ∈ done ++ [(here, hop)], x.2.2 = v) ↔ (∃ x ∈ done, x.2.2 = v) ∨ hop.2 = v := by
  simp only [List.mem_append, List.mem_singleton]
  constructor
  · rintro ⟨x, hx | rfl, rfl⟩
    · exact Or.inl ⟨x, hx, rfl⟩
    · exact Or.inr rfl
  · rintro (⟨x, hx, rfl⟩ | rfl)
    · exact ⟨x, Or.inl hx, rfl⟩
    · exact ⟨(here, hop), Or.inr rfl, rfl⟩

/-- A hop to a node of an earlier level changes nothing. -/
theorem Round.skip {dag : Bool} {depth : ℕ} {bfs₀ bfs : HopLevels} {done : List (NodeAt × Hop)}
    (h : Round dag depth bfs₀ done bfs) {here : NodeAt} {hop : Hop}
    (hold : bfs₀.levels hop.2 ≠ none) : Round dag depth bfs₀ (done ++ [(here, hop)]) bfs := by
  have hsame : ∀ v, bfs₀.levels v = none →
      ((∃ x ∈ done ++ [(here, hop)], x.2.2 = v) ↔ ∃ x ∈ done, x.2.2 = v) := by
    intro v hv
    rw [exists_snoc]
    refine ⟨fun hmet => hmet.elim id ?_, Or.inl⟩
    rintro rfl
    exact absurd hv hold
  constructor
  · intro v
    rw [h.levels v]
    cases hv : bfs₀.levels v with
    | some l => rfl
    | none => simp only [hsame v hv]
  · intro v
    rw [h.next v]
    exact and_congr_right fun hv => (hsame v hv).symm
  · exact h.nodup
  · exact h.order
  · exact h.parents_old
  · intro v hv
    obtain ⟨x, hx, hparent⟩ := h.parents_new v hv
    exact ⟨x, List.mem_append_left _ hx, hparent⟩
  · intro hdag u
    rw [h.steps hdag u, List.filter_append, List.map_append]
    simp [hold]
  · exact h.paths_old
  · intro hdag v hv
    rw [h.paths_new hdag v hv, hopsTo, hopsTo, List.filter_append]
    have hne : hop.2 ≠ v := fun heq => hold (heq ▸ hv)
    simp [hne]

/-- A hop to a node that is new to the round is noted, and the node is discovered unless
another hop of the round has discovered it. -/
theorem Round.take {dag : Bool} {depth : ℕ} {bfs₀ bfs : HopLevels} {done : List (NodeAt × Hop)}
    (h : Round dag depth bfs₀ done bfs) {here : NodeAt} {hop : Hop}
    (hhere : bfs₀.levels here ≠ none) (hnew : bfs₀.levels hop.2 = none) {noted : HopLevels}
    (hnoted : noted = if dag then bfs.note here hop else bfs) :
    Round dag depth bfs₀ (done ++ [(here, hop)])
      (if (bfs.levels hop.2).isSome then noted else noted.discover depth here hop) := by
  have hlevels : noted.levels = bfs.levels := by rw [hnoted]; split <;> rfl
  have hparents : noted.parents = bfs.parents := by rw [hnoted]; split <;> rfl
  have horder : noted.order = bfs.order := by rw [hnoted]; split <;> rfl
  have hnext : noted.next = bfs.next := by rw [hnoted]; split <;> rfl
  have hsteps : dag = true → ∀ u, noted.steps u = bfs₀.steps u ++
      ((done ++ [(here, hop)]).filter
        fun x => decide (x.1 = u ∧ bfs₀.levels x.2.2 = none)).map Prod.snd := by
    intro hdag u
    rw [hnoted, if_pos hdag, List.filter_append, List.map_append, ← List.append_assoc,
      ← h.steps hdag u]
    by_cases hu : u = here
    · subst hu
      simp [HopLevels.note, hnew]
    · simp [HopLevels.note, hu, Ne.symm hu]
  have hpaths_old : dag = true → ∀ v, bfs₀.levels v ≠ none → noted.paths v = bfs₀.paths v := by
    intro hdag v hv
    have hne : v ≠ hop.2 := fun heq => hv (heq ▸ hnew)
    rw [hnoted, if_pos hdag, HopLevels.note, ← h.paths_old hdag v hv]
    exact Function.update_of_ne hne _ _
  have hpaths_new : dag = true → ∀ v, bfs₀.levels v = none → noted.paths v =
      min ((hopsTo v (done ++ [(here, hop)])).map fun x => bfs₀.paths x.1).sum (2 ^ 64 - 1) := by
    intro hdag v hv
    rw [hnoted, if_pos hdag, HopLevels.note, hopsTo, List.filter_append]
    by_cases heq : v = hop.2
    · subst heq
      dsimp only
      rw [Function.update_self, h.paths_new hdag hop.2 hnew, h.paths_old hdag here hhere,
        satAdd_min]
      simp [hopsTo]
    · dsimp only
      rw [Function.update_of_ne heq, h.paths_new hdag v hv]
      simp [hopsTo, Ne.symm heq]
  have hseen : (bfs.levels hop.2).isSome = true ↔ ∃ x ∈ done, x.2.2 = hop.2 := by
    rw [h.levels, hnew, Option.none_or]
    split <;> simp_all
  split
  case isTrue hmet =>
    rw [hseen] at hmet
    have hsame : ∀ v, (∃ x ∈ done ++ [(here, hop)], x.2.2 = v) ↔ ∃ x ∈ done, x.2.2 = v := by
      intro v
      rw [exists_snoc]
      refine ⟨fun h => h.elim id ?_, Or.inl⟩
      rintro rfl
      exact hmet
    refine ⟨?_, ?_, ?_, ?_, ?_, ?_, hsteps, hpaths_old, hpaths_new⟩
    · intro v
      rw [hlevels, h.levels v]
      simp only [hsame v]
    · intro v
      rw [hnext, h.next v, hsame v]
    · rw [hnext]
      exact h.nodup
    · rw [horder, hnext]
      exact h.order
    · intro v hv
      rw [hparents]
      exact h.parents_old v hv
    · intro v hv
      rw [hnext] at hv
      rw [hparents]
      obtain ⟨x, hx, hparent⟩ := h.parents_new v hv
      exact ⟨x, List.mem_append_left _ hx, hparent⟩
  case isFalse hmet =>
    rw [hseen] at hmet
    have hfresh : hop.2 ∉ bfs.next := fun hmem => hmet ((h.next hop.2).1 hmem).2
    refine ⟨?_, ?_, ?_, ?_, ?_, ?_, hsteps, hpaths_old, hpaths_new⟩
    · intro v
      simp only [HopLevels.discover, hlevels, exists_snoc]
      by_cases heq : v = hop.2
      · subst heq
        simp [hnew]
      · have hne : ¬ hop.2 = v := fun h => heq h.symm
        rw [Function.update_of_ne heq, h.levels v]
        simp only [hne, or_false]
    · intro v
      rw [exists_snoc]
      simp only [HopLevels.discover, hnext, List.mem_append, List.mem_singleton, h.next v]
      constructor
      · rintro (⟨hv, hx⟩ | rfl)
        · exact ⟨hv, Or.inl hx⟩
        · exact ⟨hnew, Or.inr rfl⟩
      · rintro ⟨hv, hx | rfl⟩
        · exact Or.inl ⟨hv, hx⟩
        · exact Or.inr rfl
    · simp only [HopLevels.discover, hnext]
      rw [List.nodup_append]
      refine ⟨h.nodup, List.nodup_singleton _, fun a ha b hb heq => ?_⟩
      rw [List.mem_singleton] at hb
      subst hb
      subst heq
      exact hfresh ha
    · simp only [HopLevels.discover, hnext, horder, h.order, List.append_assoc]
    · intro v hv
      have hne : v ≠ hop.2 := fun heq => hv (heq ▸ hnew)
      simp only [HopLevels.discover, hparents, Function.update_of_ne hne]
      exact h.parents_old v hv
    · intro v hv
      simp only [HopLevels.discover, hnext, List.mem_append, List.mem_singleton] at hv
      by_cases heq : v = hop.2
      · subst heq
        refine ⟨(here, hop), by simp, ?_, rfl⟩
        exact Function.update_self _ _ _
      · obtain ⟨x, hx, hparent⟩ := h.parents_new v (hv.resolve_right heq)
        refine ⟨x, List.mem_append_left _ hx, ?_⟩
        simp only [HopLevels.discover, hparents, Function.update_of_ne heq]
        exact hparent

theorem Round.visit {dag : Bool} {depth : ℕ} {bfs₀ bfs : HopLevels}
    {done : List (NodeAt × Hop)} (h : Round dag depth bfs₀ done bfs) {here : NodeAt} (hop : Hop)
    (hhere : bfs₀.levels here ≠ none) (hlow : ∀ v l, bfs₀.levels v = some l → l < depth) :
    Round dag depth bfs₀ (done ++ [(here, hop)]) (bfs.visit dag depth here hop) := by
  have hlevel := h.levels hop.2
  cases hgiven : bfs₀.levels hop.2 with
  | some l =>
      rw [hgiven, Option.some_or] at hlevel
      have hvisit : bfs.visit dag depth here hop = bfs := by
        simp [HopLevels.visit, hlevel, (hlow hop.2 l hgiven).ne]
      rw [hvisit]
      exact h.skip (by simp [hgiven])
  | none =>
      have hfirst : (bfs.levels hop.2).getD depth = depth := by
        rw [hlevel, hgiven, Option.none_or]
        split <;> rfl
      have hvisit := h.take hhere hgiven rfl
      rw [HopLevels.visit]
      simpa [hfirst] using hvisit

/-! ### The rounds -/

section

variable {g : Graph} {spec : VarSpec ε} {start : NodeAt} {dag : Bool}

variable (g spec) in
/-- The hops that leave the nodes of a frontier, with the nodes they leave. -/
def hopsFrom (frontier : List NodeAt) : List (NodeAt × Hop) :=
  frontier.flatMap fun u => (passing g spec.rels spec.direction spec.gate u).map (Prod.mk u)

theorem mem_hopsFrom {frontier : List NodeAt} {x : NodeAt × Hop} :
    x ∈ hopsFrom g spec frontier ↔ x.1 ∈ frontier ∧ Takes g spec x.1 x.2.1 x.2.2 := by
  rw [hopsFrom, List.mem_flatMap]
  constructor
  · rintro ⟨u, hu, hx⟩
    obtain ⟨hop, hhop, rfl⟩ := List.mem_map.1 hx
    exact ⟨hu, hhop⟩
  · rintro ⟨hu, hhop⟩
    exact ⟨x.1, hu, List.mem_map.2 ⟨x.2, hhop, rfl⟩⟩

theorem count_hopsFrom {frontier : List NodeAt} (hnodup : frontier.Nodup) {u : NodeAt}
    (hu : u ∈ frontier) (hop : Hop) : (hopsFrom g spec frontier).count (u, hop) =
      (passing g spec.rels spec.direction spec.gate u).count hop := by
  have hinj : Function.Injective (Prod.mk u : Hop → NodeAt × Hop) := fun a b h =>
    congrArg Prod.snd h
  rw [hopsFrom, List.count_flatMap, sum_map_of_single (a := u)]
  · rw [Function.comp_apply, List.count_map_of_injective _ _ hinj, List.count_eq_one_of_mem hnodup hu,
      Nat.one_mul]
  · intro v _ hne
    apply List.count_eq_zero.2
    intro hmem
    obtain ⟨hop', -, heq⟩ := List.mem_map.1 hmem
    exact hne (congrArg Prod.fst heq)

theorem round_settles {depth : ℕ} {bfs₀ : HopLevels}
    (hpaths : dag = true → ∀ v, bfs₀.levels v = none → bfs₀.paths v = 0)
    (hnext : ∀ u ∈ bfs₀.next, bfs₀.levels u ≠ none)
    (hlow : ∀ v l, bfs₀.levels v = some l → l < depth) :
    Settles (bfs₀.round g spec dag depth) True
      (Round dag depth bfs₀ (hopsFrom g spec bfs₀.next)) := by
  have hhops : ∀ (here : NodeAt) (hops : List Hop) (done : List (NodeAt × Hop)) (bfs : HopLevels),
      bfs₀.levels here ≠ none → Round dag depth bfs₀ done bfs →
      Round dag depth bfs₀ (done ++ hops.map (Prod.mk here))
        (hops.foldl (HopLevels.visit dag depth here) bfs) := by
    intro here hops
    induction hops with
    | nil =>
        intro done bfs _ h
        rw [List.map_nil, List.append_nil]
        exact h
    | cons hop hops ih =>
        intro done bfs hhere h
        rw [List.map_cons, List.append_cons, List.foldl_cons]
        exact ih _ _ hhere (h.visit hop hhere hlow)
  rw [HopLevels.round]
  apply Settles.foldlM (fun us => Round dag depth bfs₀ (hopsFrom g spec us)) (Round.init hpaths)
  intro done here hmem bfs h
  have hedges : Settles (Timed.of (hopEdges g spec.rels spec.direction spec.gate here)) True
      fun hops => hops = passing g spec.rels spec.direction spec.gate here :=
    Settles.of (fun hops heq => (keepPassing_ok heq).1) fun _ _ => trivial
  apply hedges.bind
  rintro hops rfl
  apply Settles.pure
  rw [hopsFrom, List.flatMap_append, List.flatMap_singleton]
  exact hhops here _ _ bfs (hnext here hmem) h

variable (g spec start) in
/-- The paths to a node are the walks of the fewest hops to it, each as often as there are ways
to take its hops. -/
structure CountsShortest (v : NodeAt) (ways : List (List Hop)) : Prop where
  shortest : ∀ p ∈ ways, IsWalk (Takes g spec) start p ∧ ended start p = v ∧
    Level (Adjacent g spec) (· = start) p.length v
  count : ∀ p, IsWalk (Takes g spec) start p → ended start p = v →
    Level (Adjacent g spec) (· = start) p.length v →
    ways.count p = weight (passing g spec.rels spec.direction spec.gate) start p

variable (g spec) in
/-- Nodes in an order in which each but the start is behind the node it was discovered from. -/
inductive Found (start : NodeAt) (parents : NodeAt → Option (Rel × NodeAt)) : List NodeAt → Prop
  | start (h : parents start = none) : Found start parents [start]
  | snoc {order : List NodeAt} {u v : NodeAt} {e : Rel} {l : ℕ} (h : Found start parents order)
      (hparent : parents v = some (e, u)) (hu : u ∈ order) (htakes : Takes g spec u e v)
      (hlu : Level (Adjacent g spec) (· = start) l u)
      (hlv : Level (Adjacent g spec) (· = start) (l + 1) v) : Found start parents (order ++ [v])

variable (g spec start dag) in
/-- What the prepass knows after so many rounds. -/
structure Levelled (d : ℕ) (bfs : HopLevels) : Prop where
  levels : ∀ v l, bfs.levels v = some l ↔ l ≤ d ∧ Level (Adjacent g spec) (· = start) l v
  next : ∀ v, v ∈ bfs.next ↔ Level (Adjacent g spec) (· = start) d v
  next_nodup : bfs.next.Nodup
  order : ∀ v, v ∈ bfs.order ↔ bfs.levels v ≠ none
  order_nodup : bfs.order.Nodup
  found : Found g spec start bfs.parents bfs.order
  steps_count : dag = true → ∀ u l hop, l < d → Level (Adjacent g spec) (· = start) l u →
    Level (Adjacent g spec) (· = start) (l + 1) hop.2 →
    (bfs.steps u).count hop = (passing g spec.rels spec.direction spec.gate u).count hop
  steps_mem : dag = true → ∀ u, ∀ hop ∈ bfs.steps u,
    ∃ l < d, Level (Adjacent g spec) (· = start) l u ∧
      Level (Adjacent g spec) (· = start) (l + 1) hop.2 ∧ Takes g spec u hop.1 hop.2
  ways : dag = true → ∀ v, bfs.levels v ≠ none →
    ∃ ways, CountsShortest g spec start v ways ∧ bfs.paths v = min ways.length (2 ^ 64 - 1)
  no_ways : dag = true → ∀ v, bfs.levels v = none → bfs.paths v = 0

theorem level_start {l : ℕ} :
    Level (Adjacent g spec) (· = start) l start ↔ l = 0 := by
  constructor
  · intro h
    exact level_unique h (level_zero.2 rfl)
  · rintro rfl
    exact level_zero.2 rfl

theorem countsShortest_start : CountsShortest g spec start start [[]] where
  shortest p hp := by
    rw [List.mem_singleton.1 hp]
    exact ⟨trivial, rfl, level_zero.2 rfl⟩
  count p hp hended hlevel := by
    obtain rfl : p = [] := List.length_eq_zero_iff.1 (level_start.1 hlevel)
    rfl

theorem Levelled.init : Levelled g spec start dag 0 (HopLevels.init start dag) := by
  have hlevels : ∀ v, (HopLevels.init start dag).levels v = if v = start then some 0 else none := by
    intro v
    simp only [HopLevels.init, Function.update_apply]
  have hsome : ∀ v, (HopLevels.init start dag).levels v ≠ none ↔ v = start := by
    intro v
    rw [hlevels]
    split <;> simp_all
  have hpaths : dag = true → ∀ v, (HopLevels.init start dag).paths v = if v = start then 1 else 0 := by
    intro hdag v
    simp only [HopLevels.init, if_pos hdag, Function.update_apply]
  constructor
  · intro v l
    rw [hlevels, Nat.le_zero]
    constructor
    · intro h
      split at h
      case isTrue heq =>
        cases h
        exact ⟨rfl, level_zero.2 heq⟩
      case isFalse => cases h
    · rintro ⟨rfl, h⟩
      rw [if_pos (level_zero.1 h)]
  · intro v
    rw [level_zero]
    exact List.mem_singleton
  · exact List.nodup_singleton start
  · intro v
    rw [hsome]
    exact List.mem_singleton
  · exact List.nodup_singleton start
  · exact Found.start rfl
  · exact fun _ _ _ _ h => absurd h (Nat.not_lt_zero _)
  · exact fun _ _ _ hmem => absurd hmem List.not_mem_nil
  · intro hdag v hv
    rw [hsome] at hv
    subst hv
    exact ⟨[[]], countsShortest_start, by rw [hpaths hdag, if_pos rfl]; rfl⟩
  · intro hdag v hv
    rw [hpaths hdag, if_neg]
    intro heq
    exact (hsome v).2 heq hv

theorem Found.congr {parents parents' : NodeAt → Option (Rel × NodeAt)} {order : List NodeAt}
    (h : Found g spec start parents order) (hsame : ∀ v ∈ order, parents' v = parents v) :
    Found g spec start parents' order := by
  induction h with
  | start h => exact Found.start ((hsame start (List.mem_singleton_self start)).trans h)
  | snoc h hparent hu htakes hlu hlv ih =>
      apply Found.snoc (ih fun v hv => hsame v (List.mem_append_left _ hv)) _ hu htakes hlu hlv
      rw [hsame _ (List.mem_append_right _ (List.mem_singleton_self _)), hparent]

theorem Found.append {parents : NodeAt → Option (Rel × NodeAt)} {order : List NodeAt}
    (h : Found g spec start parents order) (more : List NodeAt)
    (hmore : ∀ v ∈ more, ∃ e u l, parents v = some (e, u) ∧ u ∈ order ∧ Takes g spec u e v ∧
      Level (Adjacent g spec) (· = start) l u ∧ Level (Adjacent g spec) (· = start) (l + 1) v) :
    Found g spec start parents (order ++ more) := by
  induction more generalizing order with
  | nil =>
      rw [List.append_nil]
      exact h
  | cons v more ih =>
      obtain ⟨⟨e, u, l, hparent, hu, htakes, hlu, hlv⟩, hrest⟩ := List.forall_mem_cons.1 hmore
      rw [List.append_cons]
      apply ih (h.snoc hparent hu htakes hlu hlv)
      intro v' hv'
      obtain ⟨e', u', l', hparent', hu', hlevels⟩ := hrest v' hv'
      exact ⟨e', u', l', hparent', List.mem_append_left _ hu', hlevels⟩

/-- A node from which a node of the next level is reached in as many hops is of the level. -/
theorem level_of_step {d : ℕ} {u v : NodeAt} (hv : Level (Adjacent g spec) (· = start) (d + 1) v)
    (hu : Hops (Adjacent g spec) (· = start) d u) (hadj : Adjacent g spec u v) :
    Level (Adjacent g spec) (· = start) d u :=
  ⟨hu, fun e he hops => hv.2 (e + 1) (Nat.succ_lt_succ he) ⟨u, hops, hadj⟩⟩

/-- The paths to a node of the next level are those to the nodes it is discovered from, with
one hop more. -/
theorem CountsShortest.next {d : ℕ} {frontier : List NodeAt} (hnodup : frontier.Nodup)
    (hfrontier : ∀ u, u ∈ frontier ↔ Level (Adjacent g spec) (· = start) d u)
    {ways : NodeAt → List (List Hop)}
    (hways : ∀ u ∈ frontier, CountsShortest g spec start u (ways u)) {v : NodeAt}
    (hv : Level (Adjacent g spec) (· = start) (d + 1) v) :
    CountsShortest g spec start v ((hopsTo v (hopsFrom g spec frontier)).flatMap
      fun x => (ways x.1).map (x.2 :: ·)) := by
  constructor
  · intro p hp
    obtain ⟨⟨u, hop⟩, hx, hp⟩ := List.mem_flatMap.1 hp
    obtain ⟨q, hq, rfl⟩ := List.mem_map.1 hp
    obtain ⟨hx, hto⟩ := List.mem_filter.1 hx
    obtain ⟨hu, htakes⟩ := mem_hopsFrom.1 hx
    obtain ⟨hwalk, hended, hlevel⟩ := (hways u hu).shortest q hq
    have hlen : q.length = d := level_unique hlevel ((hfrontier u).1 hu)
    refine ⟨⟨hwalk, ?_⟩, of_decide_eq_true hto, ?_⟩
    · rw [hended]
      exact htakes
    · rw [List.length_cons, hlen]
      exact hv
  · intro p hwalk hended hlevel
    cases p with
    | nil =>
        obtain rfl : start = v := hended
        exact absurd (level_start.1 hv) (Nat.succ_ne_zero d)
    | cons hop q =>
        have hlen : q.length = d := Nat.succ.inj (level_unique hlevel hv)
        obtain rfl : hop.2 = v := hended
        have hu : Level (Adjacent g spec) (· = start) q.length (ended start q) :=
          level_of_step hlevel (hops_iff.2 ⟨q, hwalk.1, rfl, rfl⟩) ⟨hop.1, hwalk.2⟩
        have hmem : ended start q ∈ frontier := (hfrontier _).2 (hlen ▸ hu)
        have hinj : Function.Injective (hop :: · : List Hop → List Hop) := fun a b h =>
          (List.cons.inj h).2
        rw [List.count_flatMap, sum_map_of_single (a := (ended start q, hop))]
        · rw [Function.comp_apply, List.count_map_of_injective _ _ hinj,
            (hways _ hmem).count q hwalk.1 rfl hu, hopsTo, List.count_filter (by simp),
            count_hopsFrom hnodup hmem, weight, Nat.mul_comm]
        · rintro ⟨u, hop'⟩ hx hne
          rw [Function.comp_apply]
          apply List.count_eq_zero.2
          intro hp
          obtain ⟨q', hq', heq⟩ := List.mem_map.1 hp
          obtain ⟨rfl, rfl⟩ := List.cons.inj heq
          have hu' := (mem_hopsFrom.1 (List.mem_filter.1 hx).1).1
          apply hne
          rw [((hways u hu').shortest _ hq').2.1]

theorem count_map_snd {u : NodeAt} {hop : Hop} {l : List (NodeAt × Hop)}
    (h : ∀ x ∈ l, x.1 = u) : (l.map Prod.snd).count hop = l.count (u, hop) := by
  induction l with
  | nil => rfl
  | cons x l ih =>
      obtain ⟨rfl, hrest⟩ := List.forall_mem_cons.1 h
      rw [List.map_cons, List.count_cons, List.count_cons, ih hrest]
      congr 1
      obtain ⟨u, hop'⟩ := x
      simp

theorem min_sum_min {α : Type} (f : α → ℕ) (m : ℕ) (l : List α) :
    min (l.map fun x => min (f x) m).sum m = min (l.map f).sum m := by
  induction l with
  | nil => rfl
  | cons x l ih =>
      rw [List.map_cons, List.sum_cons, List.map_cons, List.sum_cons]
      omega

theorem Levelled.next_round {d : ℕ} {bfs bfs' : HopLevels} (h : Levelled g spec start dag d bfs)
    (hround : Round dag (d + 1) bfs (hopsFrom g spec bfs.next) bfs') :
    Levelled g spec start dag (d + 1) bfs' := by
  have hwithin : ∀ v, bfs.levels v ≠ none ↔ Within (Adjacent g spec) (· = start) d v := by
    intro v
    rw [within_iff_level]
    constructor
    · intro hv
      obtain ⟨l, hl⟩ := Option.ne_none_iff_exists'.1 hv
      exact ⟨l, (h.levels v l).1 hl⟩
    · rintro ⟨l, hl⟩
      rw [(h.levels v l).2 hl]
      exact Option.some_ne_none l
  have hmet : ∀ v, (∃ x ∈ hopsFrom g spec bfs.next, x.2.2 = v) ↔
      ∃ u, Level (Adjacent g spec) (· = start) d u ∧ Adjacent g spec u v := by
    intro v
    constructor
    · rintro ⟨x, hx, rfl⟩
      obtain ⟨hu, htakes⟩ := mem_hopsFrom.1 hx
      exact ⟨x.1, (h.next _).1 hu, x.2.1, htakes⟩
    · rintro ⟨u, hu, e, htakes⟩
      exact ⟨(u, e, v), mem_hopsFrom.2 ⟨(h.next u).2 hu, htakes⟩, rfl⟩
  have hnew : ∀ v, (bfs.levels v = none ∧ ∃ x ∈ hopsFrom g spec bfs.next, x.2.2 = v) ↔
      Level (Adjacent g spec) (· = start) (d + 1) v := by
    intro v
    rw [hmet, level_succ, ← hwithin, not_not, and_comm]
  have hnext : ∀ v, v ∈ bfs'.next ↔ Level (Adjacent g spec) (· = start) (d + 1) v := by
    intro v
    rw [hround.next, hnew]
  have hknown : ∀ u ∈ bfs.next, bfs.levels u ≠ none := fun u hu =>
    (hwithin u).2 ⟨d, Nat.le_refl d, ((h.next u).1 hu).1⟩
  have hsome : ∀ v, bfs'.levels v ≠ none ↔ bfs.levels v ≠ none ∨ v ∈ bfs'.next := by
    intro v
    rw [hround.levels, hround.next]
    cases bfs.levels v with
    | some l => simp
    | none => simp
  constructor
  · intro v l
    rw [hround.levels]
    cases hv : bfs.levels v with
    | some l' =>
        obtain ⟨hle, hlevel⟩ := (h.levels v l').1 hv
        rw [Option.some_or, Option.some.injEq]
        constructor
        · rintro rfl
          exact ⟨hle.trans (Nat.le_succ d), hlevel⟩
        · exact fun hl => level_unique hlevel hl.2
    | none =>
        rw [Option.none_or]
        constructor
        · intro hl
          split at hl
          case isTrue hx =>
            cases hl
            exact ⟨Nat.le_refl _, (hnew v).1 ⟨hv, hx⟩⟩
          case isFalse => cases hl
        · rintro ⟨hle, hlevel⟩
          obtain hlt | rfl := Nat.lt_or_eq_of_le hle
          · have hgiven := (h.levels v l).2 ⟨Nat.le_of_lt_succ hlt, hlevel⟩
            rw [hv] at hgiven
            cases hgiven
          · rw [if_pos ((hnew v).2 hlevel).2]
  · exact hnext
  · exact hround.nodup
  · intro v
    rw [hround.order, List.mem_append, h.order, hsome]
  · rw [hround.order, List.nodup_append]
    refine ⟨h.order_nodup, hround.nodup, fun a ha b hb heq => ?_⟩
    subst heq
    exact (h.order a).1 ha ((hround.next a).1 hb).1
  · rw [hround.order]
    apply (h.found.congr fun v hv => hround.parents_old v ((h.order v).1 hv)).append
    intro v hv
    obtain ⟨x, hx, hparent, rfl⟩ := hround.parents_new v hv
    obtain ⟨hu, htakes⟩ := mem_hopsFrom.1 hx
    exact ⟨x.2.1, x.1, d, hparent, (h.order _).2 (hknown _ hu), htakes, (h.next _).1 hu,
      (hnext _).1 hv⟩
  · intro hdag u l hop hl hlu hlv
    rw [hround.steps hdag, List.count_append]
    obtain hlt | rfl := Nat.lt_or_eq_of_le (Nat.le_of_lt_succ hl)
    · have hnone : ((hopsFrom g spec bfs.next).filter
          fun x => decide (x.1 = u ∧ bfs.levels x.2.2 = none)) = [] := by
        rw [List.filter_eq_nil_iff]
        intro x hx hcond
        have hxu := (of_decide_eq_true hcond).1
        have hlevel := (h.next _).1 (mem_hopsFrom.1 hx).1
        rw [hxu] at hlevel
        exact absurd (level_unique hlu hlevel) hlt.ne
      rw [hnone, h.steps_count hdag u l hop hlt hlu hlv]
      rfl
    · have hempty : bfs.steps u = [] := by
        rw [List.eq_nil_iff_forall_not_mem]
        intro hop' hmem
        obtain ⟨l', hl', hlu', -⟩ := h.steps_mem hdag u hop' hmem
        exact absurd (level_unique hlu' hlu) hl'.ne
      rw [hempty, count_map_snd (u := u) fun x hx =>
        (of_decide_eq_true (List.mem_filter.1 hx).2).1, List.count_filter (by
          simp [((hnew hop.2).2 hlv).1]), count_hopsFrom h.next_nodup ((h.next u).2 hlu)]
      simp
  · intro hdag u hop hmem
    rw [hround.steps hdag, List.mem_append] at hmem
    obtain hold | hmore := hmem
    · obtain ⟨l, hl, hrest⟩ := h.steps_mem hdag u hop hold
      exact ⟨l, hl.trans (Nat.lt_succ_self d), hrest⟩
    · obtain ⟨x, hx, rfl⟩ := List.mem_map.1 hmore
      obtain ⟨hdone, hcond⟩ := List.mem_filter.1 hx
      obtain ⟨rfl, hfresh⟩ := of_decide_eq_true hcond
      obtain ⟨hu, htakes⟩ := mem_hopsFrom.1 hdone
      exact ⟨d, Nat.lt_succ_self d, (h.next _).1 hu, (hnew _).1 ⟨hfresh, x, hdone, rfl⟩, htakes⟩
  · intro hdag v hv
    by_cases hold : bfs.levels v = none
    · have hlevel := (hnext v).1 (((hsome v).1 hv).resolve_left (not_not.2 hold))
      have hchoice : ∀ u, ∃ ways, u ∈ bfs.next →
          CountsShortest g spec start u ways ∧ bfs.paths u = min ways.length (2 ^ 64 - 1) := by
        intro u
        by_cases hu : u ∈ bfs.next
        · obtain ⟨ways, hways⟩ := h.ways hdag u (hknown u hu)
          exact ⟨ways, fun _ => hways⟩
        · exact ⟨[], fun hmem => absurd hmem hu⟩
      choose ways hways using hchoice
      refine ⟨_, CountsShortest.next h.next_nodup h.next (fun u hu => (hways u hu).1) hlevel, ?_⟩
      have hlens : (hopsTo v (hopsFrom g spec bfs.next)).map (fun x => bfs.paths x.1) =
          (hopsTo v (hopsFrom g spec bfs.next)).map
            fun x => min (ways x.1).length (2 ^ 64 - 1) := by
        apply List.map_congr_left
        intro x hx
        exact (hways x.1 (mem_hopsFrom.1 (List.mem_filter.1 hx).1).1).2
      rw [hround.paths_new hdag v hold, hlens, min_sum_min, List.length_flatMap]
      simp only [List.length_map]
    · rw [hround.paths_old hdag v hold]
      exact h.ways hdag v hold
  · intro hdag v hv
    have hnone : bfs.levels v = none ∧ v ∉ bfs'.next := by
      by_contra hnot
      rw [not_and_or, not_not] at hnot
      exact (hsome v).2 hnot hv
    have hempty : hopsTo v (hopsFrom g spec bfs.next) = [] := by
      rw [hopsTo, List.filter_eq_nil_iff]
      intro x hx hto
      exact hnone.2 ((hround.next v).2 ⟨hnone.1, x, hx, of_decide_eq_true hto⟩)
    rw [hround.paths_new hdag v hnone.1, hempty]
    rfl

theorem levelsFrom_settles {turns d : ℕ} {bfs : HopLevels} (h : Levelled g spec start dag d bfs)
    (hallows : spec.Allows d) (hd : d ≤ (places g spec.rels start).card)
    (hturns : (places g spec.rels start).card < turns + d) :
    Settles (levelsFrom g spec dag turns d bfs) True fun bfs' =>
      ∃ last, Levelled g spec start dag last bfs' ∧ spec.Allows last ∧
        ((∀ v, ¬ Level (Adjacent g spec) (· = start) last v) ∨ spec.full last = true) := by
  induction turns generalizing d bfs with
  | zero =>
      rw [Nat.zero_add] at hturns
      exact absurd hd (Nat.not_le.2 hturns)
  | succ turns ih =>
      rw [levelsFrom]
      split
      case isTrue hend =>
        apply Settles.pure
        rw [Bool.or_eq_true, List.isEmpty_iff] at hend
        refine ⟨d, h, hallows, hend.imp_left fun hempty v hv => ?_⟩
        rw [← h.next, hempty] at hv
        exact absurd hv List.not_mem_nil
      case isFalse hgo =>
        rw [Bool.or_eq_true, not_or, List.isEmpty_iff, Bool.not_eq_true] at hgo
        obtain ⟨hsome, hfull⟩ := hgo
        obtain ⟨v, hv⟩ := List.exists_mem_of_ne_nil _ hsome
        have hless : d < (places g spec.rels start).card :=
          level_lt_card (fun _ _ => level_mem_places) ((h.next v).1 hv)
        apply Settles.bind (round_settles h.no_ways _ _)
        · intro bfs' hround
          apply ih (h.next_round hround)
          · exact fun m hm => VarSpec.full_eq_false.1 hfull m hm
          · exact hless
          · omega
        · intro u hu hnone
          rw [(h.levels u d).2 ⟨Nat.le_refl d, (h.next u).1 hu⟩] at hnone
          cases hnone
        · exact fun u l hl => Nat.lt_succ_of_le ((h.levels u l).1 hl).1

variable (g spec start dag) in
/-- What the prepass answers with. -/
structure Prepassed (bfs : HopLevels) : Prop where
  levels : ∀ v l, bfs.levels v = some l ↔
    Level (Adjacent g spec) (· = start) l v ∧ spec.Allows l
  order : ∀ v, v ∈ bfs.order ↔ bfs.levels v ≠ none
  order_nodup : bfs.order.Nodup
  found : Found g spec start bfs.parents bfs.order
  steps_count : dag = true → ∀ u l hop, Level (Adjacent g spec) (· = start) l u →
    Level (Adjacent g spec) (· = start) (l + 1) hop.2 → spec.Allows (l + 1) →
    (bfs.steps u).count hop = (passing g spec.rels spec.direction spec.gate u).count hop
  steps_mem : dag = true → ∀ u, ∀ hop ∈ bfs.steps u,
    ∃ l, Level (Adjacent g spec) (· = start) l u ∧
      Level (Adjacent g spec) (· = start) (l + 1) hop.2 ∧ spec.Allows (l + 1) ∧
      Takes g spec u hop.1 hop.2
  ways : dag = true → ∀ v, bfs.levels v ≠ none →
    ∃ ways, CountsShortest g spec start v ways ∧ bfs.paths v = min ways.length (2 ^ 64 - 1)

/-- The prepass comes to its end, and answers with the levels within the hop window. -/
theorem hopLevels_settles {turns : ℕ} (hturns : (places g spec.rels start).card < turns) :
    Settles (hopLevels g spec start dag turns) True (Prepassed g spec start dag) := by
  have hallows : spec.Allows 0 := fun m _ => Nat.zero_le m
  apply (levelsFrom_settles Levelled.init hallows (Nat.zero_le _) hturns).weaken id
  rintro bfs ⟨last, h, hlast, hend⟩
  have hwindow : ∀ v l, Level (Adjacent g spec) (· = start) l v → (l ≤ last ↔ spec.Allows l) := by
    intro v l hlevel
    refine ⟨fun hle m hm => hle.trans (hlast m hm), fun hfits => ?_⟩
    obtain hempty | hfull := hend
    · by_contra hlt
      obtain ⟨u, hu⟩ := exists_level hlevel last (Nat.le_of_not_le hlt)
      exact hempty u hu
    · obtain ⟨m, hm, hle⟩ := VarSpec.full_eq_true.1 hfull
      exact (hfits m hm).trans hle
  refine ⟨fun v l => ?_, h.order, h.order_nodup, h.found, fun hdag u l hop hlu hlv hfits => ?_,
    fun hdag u hop hmem => ?_, h.ways⟩
  · rw [h.levels, and_comm]
    exact and_congr_right fun hlevel => hwindow v l hlevel
  · exact h.steps_count hdag u l hop ((hwindow _ _ hlv).2 hfits) hlu hlv
  · obtain ⟨l, hl, hlu, hlv, htakes⟩ := h.steps_mem hdag u hop hmem
    exact ⟨l, hlu, hlv, (hwindow _ _ hlv).1 hl, htakes⟩

end

end Levels

end Zu.Query
