import Zu.Query.HopLevels
import Zu.Query.Keep

/-!
# Shortest paths by levels

What the two shortest selectors answer from the prepass: one path to each node by the hops
that discovered it, or every path down the levelled graph, or only how many those are.
-/

namespace Zu.Query

namespace Levels

open Lib Lib.Walks

variable {ε : Type} (g : Graph) (spec : VarSpec ε) (start : NodeAt)

/-- A node of a level the step does not answer, or of a table it may not end in. -/
def left (bfs : HopLevels) (v : NodeAt) : Bool :=
  decide ((bfs.levels v).getD 0 < spec.min ∨ v.1 ∉ spec.toTables)

/-- What `ANY SHORTEST` does with a node: its chain is that of the node it was discovered from,
with one hop more. -/
def chain (bfs : HopLevels) (st : (NodeAt → List Hop) × List (List Hop)) (v : NodeAt) :
    (NodeAt → List Hop) × List (List Hop) :=
  let chains := match bfs.parents v with
    | some (e, u) => Function.update st.1 v ((e, v) :: st.1 u)
    | none => st.1
  (chains, if left spec bfs v then st.2 else st.2 ++ [chains v])

/-- The paths of `ANY SHORTEST`. -/
def anyShortest (turns : ℕ) : Timed ε (List (List Hop)) := do
  let bfs ← hopLevels g spec start false turns
  return (bfs.order.foldl (chain spec bfs) (fun _ => [], [])).2

/-- The paths of `ALL SHORTEST`. -/
def allShortest (turns : ℕ) : Timed ε (List (List Hop)) := do
  let bfs ← hopLevels g spec start true turns
  let out ← enumeratePaths g spec (some bfs.steps) start (Paths.push start) turns []
    (Paths.new .all)
  return out.finish

/-- How many paths either of them has, where only that is asked for. -/
def countShortest (all : Bool) (turns : ℕ) : Timed ε ℕ := do
  let bfs ← hopLevels g spec start all turns
  return bfs.order.foldl (fun total v =>
    if left spec bfs v then total else satAdd total (if all then bfs.paths v else 1)) 0

/-- A node is answered: it is so many hops away as the step allows. -/
def Answered (v : NodeAt) : Prop :=
  ∃ l, Level (Adjacent g spec) (· = start) l v ∧ spec.Allows l ∧ spec.min ≤ l ∧
    v.1 ∈ spec.toTables

/-- One path of the fewest hops to a node, where the node is answered. -/
structure OneTo (v : NodeAt) (paths : List (List Hop)) : Prop where
  one : Answered g spec start v → ∃ p, paths = [p] ∧ IsWalk (Takes g spec) start p ∧
    ended start p = v ∧ Level (Adjacent g spec) (· = start) p.length v
  none : ¬ Answered g spec start v → paths = []

/-- Every path of the fewest hops to a node, where the node is answered. -/
structure EachTo (v : NodeAt) (paths : List (List Hop)) : Prop where
  each : Answered g spec start v → CountsShortest g spec start v paths
  none : ¬ Answered g spec start v → paths = []

variable {g spec start} {dag : Bool} {bfs : HopLevels}

theorem Prepassed.left_eq_false (h : Prepassed g spec start dag bfs) {v : NodeAt}
    (hv : v ∈ bfs.order) : left spec bfs v = false ↔ Answered g spec start v := by
  obtain ⟨l, hl⟩ := Option.ne_none_iff_exists'.1 ((h.order v).1 hv)
  obtain ⟨hlevel, hfits⟩ := (h.levels v l).1 hl
  rw [left, decide_eq_false_iff_not, hl, Option.getD_some, not_or, Nat.not_lt, not_not]
  constructor
  · rintro ⟨hmin, htable⟩
    exact ⟨l, hlevel, hfits, hmin, htable⟩
  · rintro ⟨l', hlevel', -, hmin, htable⟩
    rw [level_unique hlevel hlevel']
    exact ⟨hmin, htable⟩

theorem Prepassed.mem_order (h : Prepassed g spec start dag bfs) {v : NodeAt}
    (hv : Answered g spec start v) : v ∈ bfs.order := by
  obtain ⟨l, hlevel, hfits, -⟩ := hv
  rw [h.order, (h.levels v l).2 ⟨hlevel, hfits⟩]
  exact Option.some_ne_none l

/-! ### One path to each node -/

/-- A path to each node, answered in the order the nodes were discovered. -/
theorem toNode_flatMap {order : List NodeAt} (hnodup : order.Nodup)
    {paths : NodeAt → List (List Hop)} (hends : ∀ v ∈ order, ∀ p ∈ paths v, ended start p = v)
    (v : NodeAt) : toNode start v (order.flatMap paths) = if v ∈ order then paths v else [] := by
  induction order with
  | nil => simp [toNode]
  | cons u order ih =>
      obtain ⟨hu, hrest⟩ := List.forall_mem_cons.1 hends
      obtain ⟨hnew, hnodup⟩ := List.nodup_cons.1 hnodup
      rw [List.flatMap_cons, toNode_append, ih hnodup hrest]
      by_cases heq : v = u
      · subst heq
        rw [if_neg hnew, if_pos List.mem_cons_self, List.append_nil, toNode, List.filter_eq_self]
        exact fun p hp => decide_eq_true (hu p hp)
      · have hnone : toNode start v (paths u) = [] := by
          rw [toNode, List.filter_eq_nil_iff]
          intro p hp hended
          exact heq ((of_decide_eq_true hended).symm.trans (hu p hp))
        rw [hnone, List.nil_append]
        simp only [List.mem_cons, heq, false_or]

/-- The chains are walks of the fewest hops. -/
def Chained (g : Graph) (spec : VarSpec ε) (start : NodeAt) (chains : NodeAt → List Hop)
    (order : List NodeAt) : Prop :=
  ∀ v ∈ order, IsWalk (Takes g spec) start (chains v) ∧ ended start (chains v) = v ∧
    Level (Adjacent g spec) (· = start) (chains v).length v

theorem Found.chained {parents : NodeAt → Option (Rel × NodeAt)} {order : List NodeAt}
    (h : Found g spec start parents order) (hnodup : order.Nodup) {bfs : HopLevels}
    (hparents : bfs.parents = parents) :
    Chained g spec start (order.foldl (chain spec bfs) (fun _ => [], [])).1 order ∧
      (order.foldl (chain spec bfs) (fun _ => [], [])).2 =
        (order.filter fun v => !left spec bfs v).map
          (order.foldl (chain spec bfs) (fun _ => [], [])).1 := by
  induction h with
  | start h =>
      rw [List.foldl_cons, List.foldl_nil, chain, hparents, h]
      constructor
      · intro v hv
        rw [List.mem_singleton.1 hv]
        exact ⟨trivial, rfl, level_zero.2 rfl⟩
      · cases hleft : left spec bfs start <;> simp [hleft]
  | @snoc order u v e l h hparent hu htakes hlu hlv ih =>
      obtain ⟨hold, -, hapart⟩ := List.nodup_append.1 hnodup
      have hv : v ∉ order := fun hmem => hapart v hmem v (List.mem_singleton_self v) rfl
      obtain ⟨hchained, hout⟩ := ih hold
      rw [List.foldl_append, List.foldl_cons, List.foldl_nil]
      generalize order.foldl (chain spec bfs) (fun _ => [], []) = st at hchained hout
      obtain ⟨hwalk, hended, hlevel⟩ := hchained u hu
      have hchain : (chain spec bfs st v).1 = Function.update st.1 v ((e, v) :: st.1 u) := by
        rw [chain, hparents, hparent]
      have hother : ∀ w ∈ order, (chain spec bfs st v).1 w = st.1 w := by
        intro w hw
        have hne : w ≠ v := fun heq => hv (heq ▸ hw)
        rw [hchain, Function.update_of_ne hne]
      have hself : (chain spec bfs st v).1 v = (e, v) :: st.1 u := by
        rw [hchain, Function.update_self]
      constructor
      · intro w hw
        obtain hw | hw := List.mem_append.1 hw
        · rw [hother w hw]
          exact hchained w hw
        · rw [List.mem_singleton.1 hw, hself]
          refine ⟨⟨hwalk, ?_⟩, rfl, ?_⟩
          · rw [hended]
            exact htakes
          · rw [List.length_cons, level_unique hlevel hlu]
            exact hlv
      · have hsame : (order.filter fun v => !left spec bfs v).map (chain spec bfs st v).1 = st.2 := by
          rw [hout]
          apply List.map_congr_left
          exact fun w hw => hother w (List.mem_of_mem_filter hw)
        rw [List.filter_append, List.map_append, hsame]
        have hsnd : (chain spec bfs st v).2 =
            if left spec bfs v then st.2 else st.2 ++ [(chain spec bfs st v).1 v] := rfl
        rw [hsnd]
        cases hleft : left spec bfs v <;> simp [hleft]

/-- The nodes that are answered, in the order they were discovered. -/
def answered (spec : VarSpec ε) (bfs : HopLevels) : List NodeAt :=
  bfs.order.filter fun v => !left spec bfs v

theorem Prepassed.mem_answered (h : Prepassed g spec start dag bfs) {v : NodeAt} :
    v ∈ answered spec bfs ↔ Answered g spec start v := by
  rw [answered, List.mem_filter, Bool.not_eq_true']
  constructor
  · rintro ⟨hv, hleft⟩
    exact (h.left_eq_false hv).1 hleft
  · intro hv
    exact ⟨h.mem_order hv, (h.left_eq_false (h.mem_order hv)).2 hv⟩

theorem Prepassed.nodup_answered (h : Prepassed g spec start dag bfs) :
    (answered spec bfs).Nodup := h.order_nodup.filter _

theorem Prepassed.oneShortest (h : Prepassed g spec start dag bfs) {chains : NodeAt → List Hop}
    (hchained : Chained g spec start chains bfs.order) :
    ∀ v, OneTo g spec start v (toNode start v ((answered spec bfs).map chains)) := by
  have hends : ∀ v ∈ answered spec bfs, ∀ p ∈ [chains v], ended start p = v := by
    intro v hv p hp
    rw [List.mem_singleton.1 hp]
    exact (hchained v (List.mem_of_mem_filter hv)).2.1
  have hto : ∀ v, toNode start v ((answered spec bfs).map chains) =
      if v ∈ answered spec bfs then [chains v] else [] := by
    intro v
    rw [List.map_eq_flatMap]
    exact toNode_flatMap h.nodup_answered hends v
  intro v
  constructor
  · intro hv
    have hmem := h.mem_answered.2 hv
    refine ⟨chains v, ?_, hchained v (List.mem_of_mem_filter hmem)⟩
    rw [hto, if_pos hmem]
  · intro hv
    rw [hto, if_neg fun hmem => hv (h.mem_answered.1 hmem)]

theorem anyShortest_settles {turns : ℕ} (hturns : (places g spec.rels start).card < turns) :
    Settles (anyShortest g spec start turns) True fun out =>
      ∀ v, OneTo g spec start v (toNode start v out) := by
  apply Settles.bind (hopLevels_settles hturns)
  intro bfs h
  apply Settles.pure
  obtain ⟨hchained, hout⟩ := h.found.chained h.order_nodup rfl
  rw [hout]
  exact h.oneShortest hchained

/-! ### How many there are -/

theorem foldl_satAdd (f : NodeAt → ℕ) (l : List NodeAt) (total : ℕ) :
    l.foldl (fun total v => satAdd total (f v)) (min total (2 ^ 64 - 1)) =
      min (total + (l.map f).sum) (2 ^ 64 - 1) := by
  induction l generalizing total with
  | nil => rfl
  | cons v l ih =>
      rw [List.foldl_cons, satAdd_min, ih, List.map_cons, List.sum_cons, Nat.add_assoc]

theorem foldl_left (bfs : HopLevels) (f : NodeAt → ℕ) (l : List NodeAt) (total : ℕ) :
    l.foldl (fun total v => if left spec bfs v then total else satAdd total (f v)) total =
      (l.filter fun v => !left spec bfs v).foldl (fun total v => satAdd total (f v)) total := by
  rw [List.foldl_filter]
  congr 1
  funext total v
  cases left spec bfs v <;> rfl

theorem countShortest_settles {all : Bool} {turns : ℕ}
    (hturns : (places g spec.rels start).card < turns) :
    Settles (countShortest g spec start all turns) True fun total =>
      ∃ out, (∀ v, if all then EachTo g spec start v (toNode start v out)
        else OneTo g spec start v (toNode start v out)) ∧
        total = min out.length (2 ^ 64 - 1) := by
  apply Settles.bind (hopLevels_settles hturns)
  intro bfs h
  apply Settles.pure
  rw [foldl_left, ← answered]
  have hfold := foldl_satAdd (fun v => if all then bfs.paths v else 1) (answered spec bfs) 0
  rw [Nat.zero_min, Nat.zero_add] at hfold
  rw [hfold]
  cases all with
  | false =>
      obtain ⟨hchained, -⟩ := h.found.chained h.order_nodup rfl
      refine ⟨_, h.oneShortest hchained, ?_⟩
      rw [List.length_map]
      simp
  | true =>
      have hchoice : ∀ v, ∃ ways, v ∈ answered spec bfs →
          CountsShortest g spec start v ways ∧ bfs.paths v = min ways.length (2 ^ 64 - 1) := by
        intro v
        by_cases hv : v ∈ answered spec bfs
        · obtain ⟨ways, hways⟩ := h.ways rfl v ((h.order v).1 (List.mem_of_mem_filter hv))
          exact ⟨ways, fun _ => hways⟩
        · exact ⟨[], fun hmem => absurd hmem hv⟩
      choose ways hways using hchoice
      have hends : ∀ v ∈ answered spec bfs, ∀ p ∈ ways v, ended start p = v :=
        fun v hv p hp => ((hways v hv).1.shortest p hp).2.1
      refine ⟨(answered spec bfs).flatMap ways, fun v => ⟨fun hv => ?_, fun hv => ?_⟩, ?_⟩
      · have hmem := h.mem_answered.2 hv
        rw [toNode_flatMap h.nodup_answered hends, if_pos hmem]
        exact (hways v hmem).1
      · rw [toNode_flatMap h.nodup_answered hends, if_neg fun hmem => hv (h.mem_answered.1 hmem)]
      · have hlens : (answered spec bfs).map (fun v => if true = true then bfs.paths v else 1) =
            (answered spec bfs).map fun v => min (ways v).length (2 ^ 64 - 1) := by
          apply List.map_congr_left
          intro v hv
          rw [if_pos rfl]
          exact (hways v hv).2
        rw [hlens, min_sum_min, List.length_flatMap]

/-! ### Every path down the levelled graph -/

theorem passing_count_pos {u : NodeAt} {hop : Hop} :
    0 < (passing g spec.rels spec.direction spec.gate u).count hop ↔
      Takes g spec u hop.1 hop.2 := List.count_pos_iff

/-- What a search holds that runs down the levelled graph: the walks of the fewest hops. -/
theorem Prepassed.chain_iff (h : Prepassed g spec start true bfs) {p : List Hop} :
    Chain g spec (some bfs.steps) start p ↔ IsWalk (Takes g spec) start p ∧
      Level (Adjacent g spec) (· = start) p.length (ended start p) ∧ spec.Allows p.length := by
  induction p with
  | nil =>
      constructor
      · exact fun _ => ⟨trivial, level_zero.2 rfl, fun m _ => Nat.zero_le m⟩
      · exact fun _ => trivial
  | cons hop p ih =>
      rw [Chain, ih, VarSpec.full_eq_false, VarSpec.closed, decide_eq_false_iff_not]
      constructor
      · rintro ⟨⟨hwalk, hlevel, -⟩, -, -, hhop, -⟩
        obtain ⟨l, hlu, hlv, hfits, htakes⟩ := h.steps_mem rfl _ hop hhop
        obtain rfl := level_unique hlevel hlu
        exact ⟨⟨hwalk, htakes⟩, hlv, hfits⟩
      · rintro ⟨⟨hwalk, htakes⟩, hlevel, hfits⟩
        have hlast : Level (Adjacent g spec) (· = start) p.length (ended start p) :=
          level_of_step hlevel (hops_iff.2 ⟨p, hwalk, rfl, rfl⟩) ⟨hop.1, htakes⟩
        have hcount := h.steps_count rfl _ _ hop hlast hlevel hfits
        refine ⟨⟨hwalk, hlast, fun m hm => (Nat.le_succ _).trans (hfits m hm)⟩,
          fun m hm => hfits m hm, ?_, ?_, rfl⟩
        · rintro ⟨-, hback, hpos⟩
          rw [hback] at hlast
          exact absurd (level_start.1 hlast) hpos.ne'
        · apply List.count_pos_iff.1
          rw [VarSpec.next, hcount]
          exact passing_count_pos.2 htakes

theorem Prepassed.weight_eq (h : Prepassed g spec start true bfs) {p : List Hop}
    (hchain : Chain g spec (some bfs.steps) start p) :
    weight bfs.steps start p = weight (passing g spec.rels spec.direction spec.gate) start p := by
  induction p with
  | nil => rfl
  | cons hop p ih =>
      obtain ⟨-, hlast, -⟩ := h.chain_iff.1 hchain.1
      obtain ⟨-, hlevel, hfits⟩ := h.chain_iff.1 hchain
      rw [weight, weight, ih hchain.1, h.steps_count rfl _ _ hop hlast hlevel hfits]

theorem allShortest_settles {turns : ℕ} (hturns : (places g spec.rels start).card < turns) :
    Settles (allShortest g spec start turns) True fun out =>
      ∀ v, EachTo g spec start v (toNode start v out) := by
  apply Settles.bind (hopLevels_settles hturns)
  intro bfs h
  have hlongest : ∀ p, Chain g spec (some bfs.steps) start p → p.length < turns := fun p hp =>
    (level_lt_card (fun _ _ => level_mem_places) (h.chain_iff.1 hp).2.1).trans hturns
  apply Settles.bind (enumerate_settles (Paths.push start) hlongest chain_nil (Nat.le_refl _) _)
  rintro out ⟨rfl, -⟩
  apply Settles.pure
  have hfinish : ((pathsFrom g spec (some bfs.steps) start turns []).foldl (Paths.push start)
      (Paths.new .all)).finish = pathsFrom g spec (some bfs.steps) start turns [] :=
    ((Taken.new .all).foldl trivial).finish_all (Paths.keep_foldl _ _)
  rw [hfinish]
  have hmem : ∀ p, p ∈ pathsFrom g spec (some bfs.steps) start turns [] ↔
      Chain g spec (some bfs.steps) start p ∧ spec.answers start p = true := by
    intro p
    rw [mem_pathsFrom chain_nil]
    constructor
    · exact fun ⟨_, _, _, hp⟩ => hp
    · exact fun hp => ⟨p, (List.append_nil p).symm, hlongest p hp.1, hp⟩
  intro v
  constructor
  · rintro ⟨l, hl, hfits, hmin, htable⟩
    constructor
    · intro p hp
      obtain ⟨hp, hended⟩ := mem_toNode.1 hp
      obtain ⟨hwalk, hlevel, -⟩ := h.chain_iff.1 ((hmem p).1 hp).1
      rw [hended] at hlevel
      exact ⟨hwalk, hended, hlevel⟩
    · intro p hwalk hended hlevel
      obtain rfl := level_unique hlevel hl
      have hchain : Chain g spec (some bfs.steps) start p := by
        apply h.chain_iff.2
        rw [hended]
        exact ⟨hwalk, hlevel, hfits⟩
      have hanswers : spec.answers start p = true := by
        rw [VarSpec.answers, decide_eq_true_eq, hended]
        exact ⟨hmin, htable⟩
      have hcount : (pathsFrom g spec (some bfs.steps) start turns []).count (p ++ []) =
          weight bfs.steps start p := count_pathsFrom chain_nil
        (by rwa [List.append_nil]) (by rwa [List.append_nil]) (hlongest p hchain)
      rw [List.append_nil] at hcount
      rw [count_toNode, if_pos hended, hcount]
      exact h.weight_eq hchain
  · intro hv
    rw [List.eq_nil_iff_forall_not_mem]
    intro p hp
    obtain ⟨hfound, rfl⟩ := mem_toNode.1 hp
    obtain ⟨hchain, hanswers⟩ := (hmem p).1 hfound
    obtain ⟨-, hlevel, hfits⟩ := h.chain_iff.1 hchain
    rw [VarSpec.answers, decide_eq_true_eq] at hanswers
    exact hv ⟨p.length, hlevel, hfits, hanswers.1, hanswers.2⟩

/-! ### What the selectors ask for -/

variable (g spec start) in
/-- The paths the step admits to a node, each as often as there are ways to take its hops. -/
noncomputable def admitted (v : NodeAt) (p : List Hop) : ℕ :=
  open Classical in
  if Admitted g spec start p ∧ ended start p = v then
    weight (passing g spec.rels spec.direction spec.gate) start p
  else 0

theorem weight_pos {p : List Hop} (h : IsWalk (Takes g spec) start p) :
    0 < weight (passing g spec.rels spec.direction spec.gate) start p := by
  induction p with
  | nil => exact Nat.one_pos
  | cons hop p ih => exact Nat.mul_pos (ih h.1) (passing_count_pos.2 h.2)

theorem admitted_pos {v : NodeAt} {p : List Hop} :
    0 < admitted g spec start v p ↔ Admitted g spec start p ∧ ended start p = v := by
  rw [admitted]
  split
  case isTrue h => exact ⟨fun _ => h, fun _ => weight_pos h.1.walk⟩
  case isFalse h => exact ⟨fun hpos => absurd hpos (Nat.lt_irrefl 0), fun hp => absurd hp h⟩

theorem admitted_of {v : NodeAt} {p : List Hop} (h : Admitted g spec start p)
    (hended : ended start p = v) : admitted g spec start v p =
      weight (passing g spec.rels spec.direction spec.gate) start p := if_pos ⟨h, hended⟩

theorem nodup_of_level {p : List Hop} (h : IsWalk (Takes g spec) start p)
    (hlevel : Level (Adjacent g spec) (· = start) p.length (ended start p)) :
    (nodes start p).Nodup := by
  induction p with
  | nil => exact List.nodup_singleton start
  | cons hop p ih =>
      have hlast : Level (Adjacent g spec) (· = start) p.length (ended start p) :=
        level_of_step hlevel (hops_iff.2 ⟨p, h.1, rfl, rfl⟩) ⟨hop.1, h.2⟩
      rw [nodes_cons, List.nodup_cons]
      refine ⟨fun hmem => ?_, ih h.1 hlast⟩
      obtain ⟨q, b, rfl, hb⟩ := split_of_mem_nodes hmem
      apply hlevel.2 b.length
      · rw [List.length_cons, List.length_append]
        omega
      · exact hops_iff.2 ⟨b, ((isWalk_append q b).1 h.1).1, rfl, hb⟩

/-- A walk of the fewest hops to a node that is answered is a path the step admits. -/
theorem Answered.admitted {v : NodeAt} (hv : Answered g spec start v) {p : List Hop}
    (hwalk : IsWalk (Takes g spec) start p) (hended : ended start p = v)
    (hlevel : Level (Adjacent g spec) (· = start) p.length v) : Admitted g spec start p := by
  obtain ⟨l, hl, hfits, hmin, htable⟩ := hv
  obtain rfl := level_unique hlevel hl
  rw [← hended] at hlevel htable
  exact ⟨hwalk, spec.mode.admits_of_nodup hwalk (nodup_of_level hwalk hlevel), hmin, hfits, htable⟩

/-- A path the step admits is no shorter than the fewest hops to where it ends. -/
theorem level_le_of_admitted {l : ℕ} {v : NodeAt} {p : List Hop} (h : Admitted g spec start p)
    (hended : ended start p = v) (hl : Level (Adjacent g spec) (· = start) l v) : l ≤ p.length :=
  hl.le_of_hops (hops_iff.2 ⟨p, h.walk, rfl, hended⟩)

/-- Where a path the step admits ends, an answer is missing only at the start: where the lower
bound is one hop, so that its level is too low. -/
theorem answered_of_admitted (hmin : spec.min ≤ 1) {v : NodeAt} {p : List Hop}
    (h : Admitted g spec start p) (hended : ended start p = v) :
    Answered g spec start v ∨ (v = start ∧ spec.min = 1) := by
  obtain ⟨l, hl, hlevel⟩ := (hops_iff.2 ⟨p, h.walk, rfl, hended⟩).exists_level
  have htable : v.1 ∈ spec.toTables := hended ▸ h.table
  by_cases hlow : spec.min ≤ l
  · exact Or.inl ⟨l, hlevel, fun m hm => hl.trans (h.allows m hm), hlow, htable⟩
  · have hzero : l = 0 := by omega
    rw [hzero, level_zero] at hlevel
    exact Or.inr ⟨hlevel, by omega⟩

theorem not_answered_start (hmin : spec.min = 1) : ¬ Answered g spec start start := by
  rintro ⟨l, hl, -, hlow, -⟩
  rw [level_start.1 hl, hmin] at hlow
  exact absurd hlow (Nat.not_succ_le_zero 0)

variable (g spec start) in
/-- The step has an answer at its start that the levels do not show: a path of one hop or more
that ends where it began. -/
def Returns : Prop := spec.min = 1 ∧ ∃ p, Admitted g spec start p ∧ ended start p = start

/-- One path of the fewest hops is what `ANY SHORTEST` asks for, but for a path that returns to
the start. -/
theorem OneTo.keeps_iff (hmin : spec.min ≤ 1) {v : NodeAt} {paths : List (List Hop)}
    (h : OneTo g spec start v paths) :
    (Keep.least 1).Keeps (admitted g spec start v) paths ↔
      ¬ (v = start ∧ Returns g spec start) := by
  constructor
  · rintro ⟨-, -, hall, -⟩ ⟨rfl, hone, p, hp, hended⟩
    have hnone := h.none (not_answered_start hone)
    rw [hnone] at hall
    have hcount := hall Nat.one_pos p
    exact absurd (admitted_pos.2 ⟨hp, hended⟩) (by rw [← hcount]; simp)
  · intro hreturns
    by_cases hv : Answered g spec start v
    · obtain ⟨p, rfl, hwalk, hended, hlevel⟩ := h.one hv
      have hpos := admitted_pos.2 ⟨hv.admitted hwalk hended hlevel, hended⟩
      refine ⟨fun q => ?_, Nat.le_refl 1, fun hless => absurd hless (Nat.lt_irrefl 1),
        fun q hq r hr => ?_⟩
      · rw [List.count_singleton]
        split
        case isTrue heq =>
          rw [← beq_iff_eq.1 heq]
          exact hpos
        case isFalse => exact Nat.zero_le _
      · obtain ⟨hr, hr_ended⟩ := admitted_pos.1 (Nat.lt_of_le_of_lt (Nat.zero_le _) hr)
        rw [List.mem_singleton.1 hq]
        exact level_le_of_admitted hr hr_ended hlevel
    · have hzero : ∀ q, admitted g spec start v q = 0 := by
        intro q
        by_contra hne
        obtain ⟨hq, hended⟩ := admitted_pos.1 (Nat.pos_of_ne_zero hne)
        obtain hans | ⟨rfl, hone⟩ := answered_of_admitted hmin hq hended
        · exact hv hans
        · exact hreturns ⟨rfl, hone, q, hq, hended⟩
      rw [h.none hv]
      refine ⟨fun q => Nat.zero_le _, Nat.zero_le _, fun _ q => (hzero q).symm, fun q hq => ?_⟩
      exact absurd hq List.not_mem_nil

theorem shorter_eq_zero {paths : List Hop → ℕ} {n : ℕ} :
    shorter paths n = 0 ↔ ∀ q, 0 < paths q → n ≤ q.length := by
  classical
  rw [shorter, Finset.card_eq_zero, Finset.filter_eq_empty_iff]
  constructor
  · intro h q hq
    by_contra hlt
    exact h (Finset.mem_range.2 (Nat.lt_of_not_le hlt)) ⟨q, hq, rfl⟩
  · rintro h m hm ⟨q, hq, rfl⟩
    exact absurd (Finset.mem_range.1 hm) (Nat.not_lt.2 (h q hq))

/-- Every path of the fewest hops is what `ALL SHORTEST` asks for, but for a path that returns
to the start. -/
theorem EachTo.keeps_iff (hmin : spec.min ≤ 1) {v : NodeAt} {paths : List (List Hop)}
    (h : EachTo g spec start v paths) :
    (Keep.leastGroups 1).Keeps (admitted g spec start v) paths ↔
      ¬ (v = start ∧ Returns g spec start) := by
  constructor
  · rintro hkeeps ⟨rfl, hone, hsome⟩
    -- The least path that returns is kept, but nothing is answered at the start.
    have hex : ∃ n, ∃ p, (Admitted g spec v p ∧ ended v p = v) ∧ p.length = n := by
      obtain ⟨p, hp⟩ := hsome
      exact ⟨p.length, p, hp, rfl⟩
    classical
    obtain ⟨p, hp, hlen⟩ := Nat.find_spec hex
    have hleast : shorter (admitted g spec v v) p.length = 0 := by
      rw [shorter_eq_zero]
      intro q hq
      rw [hlen]
      exact Nat.find_min' hex ⟨q, admitted_pos.1 hq, rfl⟩
    have hcount := hkeeps p
    rw [h.none (not_answered_start hone), hleast, if_pos Nat.one_pos] at hcount
    exact absurd (admitted_pos.2 hp) (by rw [← hcount]; simp)
  · intro hreturns p
    by_cases hv : Answered g spec start v
    · have hcounts := h.each hv
      by_cases hp : Admitted g spec start p ∧ ended start p = v
      · obtain ⟨l, hl, hfits, hlow, htable⟩ := hv
        obtain hlt | heq := Nat.lt_or_eq_of_le (level_le_of_admitted hp.1 hp.2 hl)
        · obtain ⟨q, hq, hlen, hended⟩ := hops_iff.1 hl.1
          have hq_level : Level (Adjacent g spec) (· = start) q.length v := hlen ▸ hl
          have hshort : ¬ shorter (admitted g spec start v) p.length < 1 := by
            rw [Nat.lt_one_iff, shorter_eq_zero]
            intro hall
            have hle := hall q (admitted_pos.2
              ⟨Answered.admitted ⟨l, hl, hfits, hlow, htable⟩ hq hended hq_level, hended⟩)
            omega
          rw [if_neg hshort]
          apply List.count_eq_zero.2
          intro hmem
          exact absurd (level_unique (hcounts.shortest p hmem).2.2 hl) hlt.ne'
        · have hleast : shorter (admitted g spec start v) p.length < 1 := by
            rw [Nat.lt_one_iff, shorter_eq_zero]
            intro q hq
            obtain ⟨hq, hended⟩ := admitted_pos.1 hq
            rw [← heq]
            exact level_le_of_admitted hq hended hl
          rw [if_pos hleast, admitted_of hp.1 hp.2]
          exact hcounts.count p hp.1.walk hp.2 (heq ▸ hl)
      · have hzero : admitted g spec start v p = 0 := if_neg hp
        rw [hzero, ite_self]
        apply List.count_eq_zero.2
        intro hmem
        obtain ⟨hwalk, hended, hlevel⟩ := hcounts.shortest p hmem
        exact hp ⟨hv.admitted hwalk hended hlevel, hended⟩
    · have hzero : admitted g spec start v p = 0 := by
        by_contra hne
        obtain ⟨hp, hended⟩ := admitted_pos.1 (Nat.pos_of_ne_zero hne)
        obtain hans | ⟨rfl, hone⟩ := answered_of_admitted hmin hp hended
        · exact hv hans
        · exact hreturns ⟨rfl, hone, p, hp, hended⟩
      rw [h.none hv, hzero, ite_self]
      rfl

end Levels

end Zu.Query
