import Zu.Lib.Fallible
import Zu.Lib.Loop
import Zu.Lib.Walks

/-!
# Variable-length steps

A step of a pattern that stands for so many hops: what hops leave a node, which of them the
step's own predicate lets through, and the depth-first search for every path that the path
mode admits.
-/

namespace Zu.Query

open Lib Lib.Walks

variable {ε σ : Type}

/-- A node the search stands on: its table and its row in that table. -/
abbrev NodeAt := ℕ × ℕ

structure Rel where
  table : ℕ
  src : ℕ
  dst : ℕ
  ord : ℕ
  deriving DecidableEq, Repr

/-- A hop: the rel value and the node it leads to. -/
abbrev Hop := Rel × NodeAt

structure RelStep where
  id : ℕ
  fromTable : ℕ
  toTable : ℕ
  undirected : Bool
  deriving DecidableEq, Repr

inductive RelDirection
  | out
  | inward
  | anyDirected
  | undirected
  | inOrUndirected
  | outOrUndirected
  | any
  deriving DecidableEq, Repr

namespace RelDirection

def walksOut (d : RelDirection) : Bool := d ≠ .inward

def walksIn (d : RelDirection) : Bool := d ≠ .out

def admitsDirected (d : RelDirection) : Bool := d ≠ .undirected

def admitsUndirected : RelDirection → Bool
  | .undirected | .inOrUndirected | .outOrUndirected | .any => true
  | _ => false

/-- Whether a table of this kind is one the pattern may walk. -/
def admits (d : RelDirection) (undirected : Bool) : Bool :=
  if undirected then d.admitsUndirected else d.admitsDirected

/-- The pattern against one rel table, as one of the three directions storage knows. -/
def resolve (d : RelDirection) (undirected : Bool) : Option RelDirection :=
  if !d.admits undirected then none
  else if undirected then some .any
  else some (match d with
    | .out | .outOrUndirected => .out
    | .inward | .inOrUndirected => .inward
    | _ => .any)

/-- The same pattern read from the other end. -/
def flip : RelDirection → RelDirection
  | .out => .inward
  | .inward => .out
  | .inOrUndirected => .outOrUndirected
  | .outOrUndirected => .inOrUndirected
  | other => other

end RelDirection

/-- Which repeats a path may contain. -/
inductive PathMode
  | walk
  | trail
  | simple
  | acyclic
  deriving DecidableEq, Repr

/-- What a search reads of the graph: `neighbors` with `neighbor_ordinals`, by the rel table,
the row, and whether the backward list is read. Tables have so many rows at most. -/
structure Graph where
  neighbors : ℕ → ℕ → Bool → List (ℕ × ℕ)
  rows : ℕ
  lt_rows : ∀ id row backwards, ∀ x ∈ neighbors id row backwards, x.1 < rows

/-- What is the same for every hop of a variable-length step: its rel tables, where a path may
end, the mode, and the step's predicate. A rel table has one pair of end tables. -/
structure VarSpec (ε : Type) where
  rels : List RelStep
  direction : RelDirection
  toTables : List ℕ
  min : ℕ
  max : Option ℕ
  mode : PathMode
  gate : Rel → Except ε Bool
  rels_by_id : ∀ a ∈ rels, ∀ b ∈ rels, a.id = b.id → a = b

variable (g : Graph) (spec : VarSpec ε)

/-- The hops over one rel table that leave a node by the forward list. -/
def hopsOut (step : RelStep) (here : NodeAt) : List Hop :=
  (g.neighbors step.id here.2 false).map fun x =>
    (⟨step.id, here.2, x.1, x.2⟩, step.toTable, x.1)

/-- The hops over one rel table that leave a node by the backward list. -/
def hopsIn (step : RelStep) (here : NodeAt) : List Hop :=
  (g.neighbors step.id here.2 true).map fun x =>
    (⟨step.id, x.1, here.2, x.2⟩, step.fromTable, x.1)

/-- The hops over one rel table that leave a node. -/
def stepHops (direction : RelDirection) (here : NodeAt) (step : RelStep) : List Hop :=
  match direction.resolve step.undirected with
  | none => []
  | some direction =>
      (if direction.walksOut && decide (here.1 = step.fromTable) then hopsOut g step here
        else []) ++
      (if direction.walksIn && decide (here.1 = step.toTable) then hopsIn g step here else [])

/-- Every hop that leaves a node, before the predicate is asked. -/
def allHops (rels : List RelStep) (direction : RelDirection) (here : NodeAt) : List Hop :=
  rels.flatMap (stepHops g direction here)

/-- The hops the predicate lets through, each asked in turn. -/
def keepPassing (gate : Rel → Except ε Bool) : List Hop → Except ε (List Hop)
  | [] => .ok []
  | hop :: hops => do
      let passes ← gate hop.1
      let kept ← keepPassing gate hops
      .ok (if passes then hop :: kept else kept)

def hopEdges (rels : List RelStep) (direction : RelDirection) (gate : Rel → Except ε Bool)
    (here : NodeAt) : Except ε (List Hop) :=
  keepPassing gate (allHops g rels direction here)

/-- A path may be so long. -/
def VarSpec.Allows (n : ℕ) : Prop := ∀ m, spec.max = some m → n ≤ m

/-- Whether a path is as long as the step allows. -/
def VarSpec.full (depth : ℕ) : Bool := spec.max.any fun m => decide (m ≤ depth)

/-- Whether one more hop would repeat what the mode does not let a path repeat. The path's
hops are listed last first, as its chain of links holds them. -/
def PathMode.repeats (mode : PathMode) (start : NodeAt) (link : List Hop) (hop : Hop) : Bool :=
  match mode with
  | .walk => false
  | .trail => decide (hop.1 ∈ edges link)
  | .acyclic => decide (hop.2 ∈ nodes start link)
  | .simple => decide (hop.2 ≠ start ∧ hop.2 ∈ nodes start link)

/-- Which of the paths to an endpoint are kept. -/
inductive Selector
  | any (k : ℕ)
  | anyShortest
  | shortest (k : ℕ)
  | allShortest
  | shortestGroup (k : ℕ)
  deriving DecidableEq, Repr

/-- `OpDesc::VarExpand`: the step, and how its paths are searched. `target` are the nodes the
key of its far end names, and `relSlot` is the slot its paths are bound to. -/
structure VarExpand (ε : Type) extends VarSpec ε where
  selector : Option Selector
  target : Option (List NodeAt)
  relSlot : ℕ
  reach : Bool
  counts : Bool

/-- The levelled graph a shortest walk runs down: the hops that leave each node. -/
abbrev Steps := NodeAt → List Hop

/-- The hops a search takes from a node: those of the levelled graph, or those storage has
and the predicate lets through. -/
def hopsAt (steps : Option Steps) (here : NodeAt) : Except ε (List Hop) :=
  match steps with
  | some steps => .ok (steps here)
  | none => hopEdges g spec.rels spec.direction spec.gate here

/-- A simple path that stands where it began. -/
def VarSpec.closed (start : NodeAt) (link : List Hop) : Bool :=
  decide (spec.mode = .simple ∧ ended start link = start ∧ 0 < link.length)

/-- Whether a path is one the step answers, by its length and where it ends. -/
def VarSpec.answers (start : NodeAt) (link : List Hop) : Bool :=
  decide (spec.min ≤ link.length ∧ (ended start link).1 ∈ spec.toTables)

/-- `enumerate_paths`, which offers each path it finds to `push`. It is cut off at so many
hops. -/
def enumeratePaths (steps : Option Steps) (start : NodeAt) (push : σ → List Hop → σ) :
    ℕ → List Hop → σ → Timed ε σ
  | 0, _, _ => Timed.cut
  | fuel + 1, link, out => do
      let out := if spec.answers start link then push out link else out
      if spec.full link.length || spec.closed start link then
        return out
      let hops ← Timed.of (hopsAt g spec steps (ended start link))
      hops.foldlM (fun out hop =>
        if steps.isNone && spec.mode.repeats start link hop then pure out
        else enumeratePaths steps start push fuel (hop :: link) out) out

/-! ### The hops that leave a node -/

/-- The predicate was asked about an edge and let it through. -/
def passes (gate : Rel → Except ε Bool) (rel : Rel) : Bool :=
  match gate rel with
  | .ok b => b
  | .error _ => false

/-- The hops that leave a node and that the predicate lets through. -/
def passing (rels : List RelStep) (direction : RelDirection) (gate : Rel → Except ε Bool)
    (here : NodeAt) : List Hop :=
  (allHops g rels direction here).filter fun hop => passes gate hop.1

/-- The predicate answers about every edge that leaves a node. -/
def Answerable (rels : List RelStep) (direction : RelDirection) (gate : Rel → Except ε Bool)
    (here : NodeAt) : Prop :=
  ∀ hop ∈ allHops g rels direction here, ∃ b, gate hop.1 = .ok b

/-- The step takes an edge from one node to another. -/
def Takes (u : NodeAt) (e : Rel) (v : NodeAt) : Prop :=
  (e, v) ∈ passing g spec.rels spec.direction spec.gate u

theorem keepPassing_ok {gate : Rel → Except ε Bool} {hops kept : List Hop}
    (h : keepPassing gate hops = .ok kept) :
    kept = hops.filter (fun hop => passes gate hop.1) ∧ ∀ hop ∈ hops, ∃ b, gate hop.1 = .ok b := by
  induction hops generalizing kept with
  | nil =>
      cases h
      exact ⟨rfl, fun _ hmem => absurd hmem List.not_mem_nil⟩
  | cons hop hops ih =>
      rw [keepPassing] at h
      obtain ⟨b, hb, h⟩ := except_bind_ok.1 h
      obtain ⟨rest, hrest, h⟩ := except_bind_ok.1 h
      obtain ⟨rfl, hall⟩ := ih hrest
      constructor
      · rw [List.filter_cons, passes, hb]
        exact (Except.ok.inj h).symm
      · exact List.forall_mem_cons.2 ⟨⟨b, hb⟩, hall⟩

variable {g spec}

/-- Where an edge may be met: at either end of the one pair of tables its table has. -/
theorem ends_of_mem {rels : List RelStep} {direction : RelDirection} {here : NodeAt} {hop : Hop}
    (h : hop ∈ allHops g rels direction here) :
    ∃ step ∈ rels, hop.1.table = step.id ∧ hop.2.2 < g.rows ∧
      ((here = (step.fromTable, hop.1.src) ∧ hop.2 = (step.toTable, hop.1.dst)) ∨
        (here = (step.toTable, hop.1.dst) ∧ hop.2 = (step.fromTable, hop.1.src))) := by
  obtain ⟨step, hstep, h⟩ := List.mem_flatMap.1 h
  rw [stepHops] at h
  split at h
  · exact absurd h List.not_mem_nil
  · rw [List.mem_append] at h
    obtain h | h := h
    · split at h
      case isFalse => exact absurd h List.not_mem_nil
      case isTrue hwalks =>
        simp only [Bool.and_eq_true, decide_eq_true_eq] at hwalks
        obtain ⟨x, hx, rfl⟩ := List.mem_map.1 h
        exact ⟨step, hstep, rfl, g.lt_rows _ _ _ x hx,
          Or.inl ⟨Prod.ext hwalks.2 rfl, rfl⟩⟩
    · split at h
      case isFalse => exact absurd h List.not_mem_nil
      case isTrue hwalks =>
        simp only [Bool.and_eq_true, decide_eq_true_eq] at hwalks
        obtain ⟨x, hx, rfl⟩ := List.mem_map.1 h
        exact ⟨step, hstep, rfl, g.lt_rows _ _ _ x hx,
          Or.inr ⟨Prod.ext hwalks.2 rfl, rfl⟩⟩

theorem Takes.mem {u v : NodeAt} {e : Rel} (h : Takes g spec u e v) :
    (e, v) ∈ allHops g spec.rels spec.direction u := (List.mem_filter.1 h).1

/-- A rel value joins two nodes and no others. -/
theorem takes_joins : Lib.Walks.Joins (Takes g spec) := by
  intro u e v u' v' h h'
  obtain ⟨step, hstep, hid, -, hends⟩ := ends_of_mem h.mem
  obtain ⟨step', hstep', hid', -, hends'⟩ := ends_of_mem h'.mem
  obtain rfl : step = step' := spec.rels_by_id step hstep step' hstep' (hid.symm.trans hid')
  obtain ⟨hu, hv⟩ | ⟨hu, hv⟩ := hends
  · obtain ⟨hu', hv'⟩ | ⟨hu', hv'⟩ := hends'
    · exact Or.inl ⟨hu'.trans hu.symm, hv'.trans hv.symm⟩
    · exact Or.inr ⟨hu'.trans hv.symm, hv'.trans hu.symm⟩
  · obtain ⟨hu', hv'⟩ | ⟨hu', hv'⟩ := hends'
    · exact Or.inr ⟨hu'.trans hv.symm, hv'.trans hu.symm⟩
    · exact Or.inl ⟨hu'.trans hu.symm, hv'.trans hv.symm⟩

/-! ### The paths a mode admits -/

/-- A mode admits a path: it repeats nothing that the mode does not let it repeat. -/
def PathMode.Admits (mode : PathMode) (start : NodeAt) (p : List Hop) : Prop :=
  match mode with
  | .walk => True
  | .trail => (edges p).Nodup
  | .simple => (p.map Prod.snd).Nodup ∧ start ∉ (p.map Prod.snd).tail
  | .acyclic => (nodes start p).Nodup

theorem PathMode.admits_nil (mode : PathMode) (start : NodeAt) : mode.Admits start [] := by
  cases mode with
  | walk => trivial
  | trail => exact List.nodup_nil
  | simple => exact ⟨List.nodup_nil, List.not_mem_nil⟩
  | acyclic => exact List.nodup_singleton start

/-- A path goes on by a hop that repeats nothing, unless it is closed. -/
theorem PathMode.admits_cons {mode : PathMode} {start : NodeAt} {hop : Hop} {p : List Hop} :
    mode.Admits start (hop :: p) ↔ mode.Admits start p ∧ mode.repeats start p hop = false ∧
      ¬ (mode = .simple ∧ ended start p = start ∧ 0 < p.length) := by
  cases mode with
  | walk => simp [PathMode.Admits, PathMode.repeats]
  | trail =>
      rw [PathMode.Admits, PathMode.Admits, PathMode.repeats, decide_eq_false_iff_not, edges,
        List.map_cons, List.nodup_cons, ← edges, and_comm]
      simp
  | acyclic =>
      simp [PathMode.Admits, PathMode.repeats, and_comm]
  | simple =>
      have hlast : start ∉ p.map Prod.snd ↔
          start ∉ (p.map Prod.snd).tail ∧ ¬ (ended start p = start ∧ 0 < p.length) := by
        cases p with
        | nil => simp
        | cons hop p => simp [ended, eq_comm, and_comm]
      simp only [PathMode.Admits, PathMode.repeats, List.map_cons, List.tail_cons,
        List.nodup_cons, decide_eq_false_iff_not, true_and, nodes, List.mem_append,
        List.mem_singleton]
      constructor
      · rintro ⟨⟨hnew, hnodup⟩, hstart⟩
        obtain ⟨htail, hclosed⟩ := hlast.1 hstart
        exact ⟨⟨hnodup, htail⟩, fun h => h.2.elim hnew h.1, hclosed⟩
      · rintro ⟨⟨hnodup, htail⟩, hrepeats, hclosed⟩
        have hstart := hlast.2 ⟨htail, hclosed⟩
        refine ⟨⟨fun hmem => ?_, hnodup⟩, hstart⟩
        by_cases heq : hop.2 = start
        · rw [heq] at hmem
          exact hstart hmem
        · exact hrepeats ⟨heq, Or.inl hmem⟩

/-! ### The depth-first search -/

section

variable (g spec) (steps : Option Steps) (start : NodeAt)

/-- The hops a search goes on by from a node. -/
def VarSpec.next (here : NodeAt) : List Hop :=
  match steps with
  | some steps => steps here
  | none => passing g spec.rels spec.direction spec.gate here

/-- What a search holds: hops that lead on from the start, none of which it would skip. -/
def Chain : List Hop → Prop
  | [] => True
  | hop :: link => Chain link ∧ spec.full link.length = false ∧ spec.closed start link = false ∧
      hop ∈ VarSpec.next g spec steps (ended start link) ∧
      (steps.isNone && spec.mode.repeats start link hop) = false

/-- The paths a search finds from where it stands, in the order it finds them. -/
def pathsFrom : ℕ → List Hop → List (List Hop)
  | 0, _ => []
  | fuel + 1, link =>
      (if spec.answers start link then [link] else []) ++
      if spec.full link.length || spec.closed start link then []
      else (VarSpec.next g spec steps (ended start link)).flatMap fun hop =>
        if steps.isNone && spec.mode.repeats start link hop then []
        else pathsFrom fuel (hop :: link)

end

variable {steps : Option Steps} {start : NodeAt}

theorem chain_nil : Chain g spec steps start [] := trivial

theorem Chain.of_append {q p : List Hop} (h : Chain g spec steps start (q ++ p)) :
    Chain g spec steps start p := by
  induction q with
  | nil => exact h
  | cons hop q ih => exact ih h.1

/-- A search finds what it holds when it goes on from where it stands. -/
theorem mem_pathsFrom {fuel : ℕ} {link p : List Hop} (hlink : Chain g spec steps start link) :
    p ∈ pathsFrom g spec steps start fuel link ↔
      ∃ q, p = q ++ link ∧ q.length < fuel ∧ Chain g spec steps start p ∧
        spec.answers start p = true := by
  induction fuel generalizing link p with
  | zero =>
      rw [pathsFrom]
      simp
  | succ fuel ih =>
      rw [pathsFrom, List.mem_append]
      constructor
      · rintro (hp | hp)
        · split at hp
          case isFalse => exact absurd hp List.not_mem_nil
          case isTrue hanswers =>
            rw [List.mem_singleton] at hp
            subst hp
            exact ⟨[], rfl, Nat.succ_pos fuel, hlink, hanswers⟩
        · split at hp
          case isTrue => exact absurd hp List.not_mem_nil
          case isFalse hon =>
            rw [Bool.or_eq_true, not_or, Bool.not_eq_true, Bool.not_eq_true] at hon
            obtain ⟨hop, hhop, hp⟩ := List.mem_flatMap.1 hp
            split at hp
            case isTrue => exact absurd hp List.not_mem_nil
            case isFalse hnew =>
              rw [Bool.not_eq_true] at hnew
              have hnext : Chain g spec steps start (hop :: link) :=
                ⟨hlink, hon.1, hon.2, hhop, hnew⟩
              obtain ⟨q, rfl, hlen, hrest⟩ := (ih hnext).1 hp
              refine ⟨q ++ [hop], by simp, ?_, hrest⟩
              rw [List.length_append]
              exact Nat.succ_lt_succ hlen
      · rintro ⟨q, rfl, hlen, hchain, hanswers⟩
        obtain rfl | ⟨q, hop, rfl⟩ := q.eq_nil_or_concat'
        · left
          rw [List.nil_append] at hanswers ⊢
          rw [if_pos hanswers]
          exact List.mem_singleton_self link
        · right
          rw [List.append_assoc, List.singleton_append] at hchain hanswers ⊢
          have hnext := hchain.of_append
          obtain ⟨-, hfull, hclosed, hhop, hnew⟩ := hnext
          rw [if_neg (by simp [hfull, hclosed])]
          apply List.mem_flatMap.2
          refine ⟨hop, hhop, ?_⟩
          rw [if_neg (by simp [hnew])]
          apply (ih hchain.of_append).2
          refine ⟨q, rfl, ?_, hchain, hanswers⟩
          rw [List.length_append] at hlen
          exact Nat.lt_of_succ_lt_succ hlen

theorem hopsAt_settles (here : NodeAt) :
    Settles (Timed.of (hopsAt g spec steps here)) True fun hops =>
      hops = VarSpec.next g spec steps here ∧
        (steps = none → Answerable g spec.rels spec.direction spec.gate here) := by
  apply Settles.of
  · intro hops h
    cases steps with
    | some steps =>
        cases h
        exact ⟨rfl, fun hnone => nomatch hnone⟩
    | none =>
        obtain ⟨hkept, hall⟩ := keepPassing_ok h
        exact ⟨hkept, fun _ => hall⟩
  · exact fun _ _ => trivial

/-- The search comes to its end, and offers what it finds in the order it finds it. Where it
does not fail, the predicate has answered at every node it went on from. -/
theorem enumerate_settles (push : σ → List Hop → σ) {longest : ℕ}
    (hlongest : ∀ p, Chain g spec steps start p → p.length < longest) {fuel : ℕ}
    {link : List Hop} (hlink : Chain g spec steps start link) (hfuel : longest ≤ fuel + link.length)
    (out : σ) :
    Settles (enumeratePaths g spec steps start push fuel link out) True fun out' =>
      out' = (pathsFrom g spec steps start fuel link).foldl push out ∧
      ∀ q, Chain g spec steps start (q ++ link) → spec.full (q ++ link).length = false →
        spec.closed start (q ++ link) = false → steps = none →
        Answerable g spec.rels spec.direction spec.gate (ended start (q ++ link)) := by
  induction fuel generalizing link out with
  | zero =>
      rw [Nat.zero_add] at hfuel
      exact absurd (hlongest link hlink) (Nat.not_lt.2 hfuel)
  | succ fuel ih =>
      rw [enumeratePaths, pathsFrom, List.foldl_append]
      have hout : (if spec.answers start link then push out link else out) =
          (if spec.answers start link then [link] else []).foldl push out := by
        split <;> rfl
      simp only [hout]
      generalize (if spec.answers start link then [link] else []).foldl push out = out₁
      by_cases hstop : (spec.full link.length || spec.closed start link) = true
      · rw [if_pos hstop, if_pos hstop]
        apply Settles.pure
        refine ⟨rfl, fun q hchain hfull hclosed hnone => ?_⟩
        obtain rfl | ⟨q, hop, rfl⟩ := q.eq_nil_or_concat'
        · rw [List.nil_append] at hfull hclosed
          simp [hfull, hclosed] at hstop
        · rw [List.append_assoc, List.singleton_append] at hchain
          obtain ⟨-, hfull, hclosed, -, -⟩ := hchain.of_append
          simp [hfull, hclosed] at hstop
      · rw [if_neg hstop, if_neg hstop]
        rw [Bool.or_eq_true, not_or, Bool.not_eq_true, Bool.not_eq_true] at hstop
        apply Settles.bind (hopsAt_settles (ended start link))
        rintro hops ⟨rfl, hanswerable⟩
        apply Settles.weaken (Settles.foldlM (fun done out' =>
            out' = (done.flatMap fun hop =>
              if steps.isNone && spec.mode.repeats start link hop then []
              else pathsFrom g spec steps start fuel (hop :: link)).foldl push out₁ ∧
            ∀ hop ∈ done, ∀ q, Chain g spec steps start (q ++ hop :: link) →
              spec.full (q ++ hop :: link).length = false →
              spec.closed start (q ++ hop :: link) = false → steps = none →
              Answerable g spec.rels spec.direction spec.gate (ended start (q ++ hop :: link)))
          ⟨rfl, fun hop hmem => absurd hmem List.not_mem_nil⟩ ?_) id
        · rintro out' ⟨rfl, hrest⟩
          refine ⟨rfl, fun q hchain hfull hclosed hnone => ?_⟩
          obtain rfl | ⟨q, hop, rfl⟩ := q.eq_nil_or_concat'
          · exact hanswerable hnone
          · rw [List.append_assoc, List.singleton_append] at hchain hfull hclosed ⊢
            exact hrest hop hchain.of_append.2.2.2.1 q hchain hfull hclosed hnone
        · rintro done hop hhop b ⟨rfl, hdone⟩
          rw [List.flatMap_append, List.foldl_append, List.flatMap_singleton]
          split
          case isTrue hskip =>
            apply Settles.pure
            refine ⟨rfl, fun hop' hmem q hchain => ?_⟩
            obtain hmem | hmem := List.mem_append.1 hmem
            · exact hdone hop' hmem q hchain
            · rw [List.mem_singleton] at hmem
              subst hmem
              rw [hchain.of_append.2.2.2.2] at hskip
              exact absurd hskip Bool.false_ne_true
          case isFalse hnew =>
            rw [Bool.not_eq_true] at hnew
            have hnext : Chain g spec steps start (hop :: link) :=
              ⟨hlink, hstop.1, hstop.2, hhop, hnew⟩
            have hmore : longest ≤ fuel + (hop :: link).length := by
              rw [List.length_cons]
              omega
            apply (ih hnext hmore _).weaken id
            rintro out' ⟨rfl, hrest⟩
            refine ⟨rfl, fun hop' hmem => ?_⟩
            obtain hmem | hmem := List.mem_append.1 hmem
            · exact hdone hop' hmem
            · rw [List.mem_singleton] at hmem
              subst hmem
              exact hrest

/-- A rule that keeps every path keeps them in the order they are found. -/
theorem foldl_push (found out : List (List Hop)) :
    found.foldl (fun out p => out ++ [p]) out = out ++ found := by
  induction found generalizing out with
  | nil => exact (List.append_nil out).symm
  | cons p found ih => rw [List.foldl_cons, ih, List.append_assoc, List.singleton_append]

/-! ### What a search that reads the graph holds -/

theorem VarSpec.full_eq_false {n : ℕ} :
    spec.full n = false ↔ ∀ m, spec.max = some m → n < m := by
  rw [VarSpec.full]
  cases h : spec.max with
  | none => simp
  | some m => simp

theorem VarSpec.full_eq_true {n : ℕ} : spec.full n = true ↔ ∃ m, spec.max = some m ∧ m ≤ n := by
  rw [VarSpec.full]
  cases h : spec.max with
  | none => simp
  | some m => simp

/-- It holds the walks that are not too long and that the mode admits. -/
theorem chain_iff {p : List Hop} :
    Chain g spec none start p ↔ IsWalk (Takes g spec) start p ∧ spec.mode.Admits start p ∧
      spec.Allows p.length := by
  induction p with
  | nil =>
      constructor
      · exact fun _ => ⟨trivial, spec.mode.admits_nil start, fun m _ => Nat.zero_le m⟩
      · exact fun _ => trivial
  | cons hop p ih =>
      rw [Chain, ih, IsWalk, PathMode.admits_cons, VarSpec.full_eq_false, VarSpec.closed,
        decide_eq_false_iff_not, Option.isNone_none, Bool.true_and, List.length_cons]
      constructor
      · rintro ⟨⟨hwalk, hadmits, -⟩, hfull, hclosed, hhop, hnew⟩
        exact ⟨⟨hwalk, hhop⟩, ⟨hadmits, hnew, hclosed⟩, hfull⟩
      · rintro ⟨⟨hwalk, hhop⟩, ⟨hadmits, hnew, hclosed⟩, hfull⟩
        exact ⟨⟨hwalk, hadmits, fun m hm => Nat.le_of_lt (hfull m hm)⟩, hfull, hclosed, hhop, hnew⟩

/-- The nodes a walk may be at. -/
def places (g : Graph) (rels : List RelStep) (start : NodeAt) : Finset NodeAt :=
  insert start ((rels.flatMap fun step => [step.fromTable, step.toTable]).toFinset ×ˢ
    Finset.range g.rows)

theorem mem_places {rels : List RelStep} {direction : RelDirection} {here : NodeAt} {hop : Hop}
    (h : hop ∈ allHops g rels direction here) : hop.2 ∈ places g rels start := by
  obtain ⟨step, hstep, -, hrow, hends⟩ := ends_of_mem h
  have htable : hop.2.1 = step.fromTable ∨ hop.2.1 = step.toTable := by
    obtain ⟨-, heq⟩ | ⟨-, heq⟩ := hends
    · exact Or.inr (congrArg Prod.fst heq)
    · exact Or.inl (congrArg Prod.fst heq)
  rw [places, Finset.mem_insert, Finset.mem_product, List.mem_toFinset, Finset.mem_range]
  refine Or.inr ⟨List.mem_flatMap.2 ⟨step, hstep, ?_⟩, hrow⟩
  simpa using htable

theorem hops_mem_places {p : List Hop} (h : IsWalk (Takes g spec) start p) :
    ∀ hop ∈ p, hop.2 ∈ places g spec.rels start := by
  induction p with
  | nil => exact fun _ hmem => absurd hmem List.not_mem_nil
  | cons hop p ih => exact List.forall_mem_cons.2 ⟨mem_places h.2.mem, ih h.1⟩

theorem ended_mem_places {p : List Hop} (h : IsWalk (Takes g spec) start p) :
    ended start p ∈ places g spec.rels start := by
  cases p with
  | nil => exact Finset.mem_insert_self _ _
  | cons hop p => exact hops_mem_places h hop List.mem_cons_self

/-- The edges a walk may go over. -/
def edgesAbout (g : Graph) (spec : VarSpec ε) (start : NodeAt) : Finset Rel :=
  (places g spec.rels start).biUnion fun here =>
    ((allHops g spec.rels spec.direction here).map Prod.fst).toFinset

theorem edges_subset {p : List Hop} (h : IsWalk (Takes g spec) start p) :
    ∀ e ∈ edges p, e ∈ edgesAbout g spec start := by
  induction p with
  | nil => exact fun _ hmem => absurd hmem List.not_mem_nil
  | cons hop p ih =>
      rw [edges, List.map_cons]
      refine List.forall_mem_cons.2 ⟨Finset.mem_biUnion.2 ⟨_, ended_mem_places h.1, ?_⟩, ih h.1⟩
      exact List.mem_toFinset.2 (List.mem_map.2 ⟨hop, h.2.mem, rfl⟩)

theorem length_le_card {α : Type} [DecidableEq α] {l : List α} {s : Finset α} (h : l.Nodup)
    (hsub : ∀ a ∈ l, a ∈ s) : l.length ≤ s.card := by
  rw [← List.toFinset_card_of_nodup h]
  exact Finset.card_le_card fun a ha => hsub a (List.mem_toFinset.1 ha)

/-- Only walks that no bound and no mode holds back are longer than any given. -/
theorem exists_longest (start : NodeAt) (hbound : spec.mode = .walk → spec.max ≠ none) :
    ∃ longest, ∀ p, Chain g spec none start p → p.length < longest := by
  simp only [chain_iff]
  cases hmax : spec.max with
  | some m => exact ⟨m + 1, fun p h => Nat.lt_succ_of_le (h.2.2 m hmax)⟩
  | none =>
      have hnodes : ∀ p, IsWalk (Takes g spec) start p → (p.map Prod.snd).Nodup →
          p.length < (places g spec.rels start).card + 1 := by
        intro p hwalk hnodup
        rw [← List.length_map Prod.snd]
        apply Nat.lt_succ_of_le
        apply length_le_card hnodup
        intro v hv
        obtain ⟨hop, hmem, rfl⟩ := List.mem_map.1 hv
        exact hops_mem_places hwalk hop hmem
      cases hmode : spec.mode with
      | walk => exact absurd hmax (hbound hmode)
      | trail =>
          refine ⟨(edgesAbout g spec start).card + 1, fun p h => Nat.lt_succ_of_le ?_⟩
          rw [← length_edges]
          exact length_le_card h.2.1 (edges_subset h.1)
      | simple => exact ⟨_, fun p h => hnodes p h.1 h.2.1.1⟩
      | acyclic => exact ⟨_, fun p h => hnodes p h.1 (List.Nodup.of_append_left h.2.1)⟩

variable (g spec) in
/-- A path the step answers: one the mode admits, of so many hops, to a table it may end in. -/
structure Admitted (start : NodeAt) (p : List Hop) : Prop where
  walk : IsWalk (Takes g spec) start p
  admits : spec.mode.Admits start p
  min_le : spec.min ≤ p.length
  allows : spec.Allows p.length
  table : (ended start p).1 ∈ spec.toTables

/-- The search from the start finds the paths the step answers. -/
theorem mem_pathsFrom_start {fuel : ℕ}
    (hfuel : ∀ p, Chain g spec none start p → p.length < fuel) {p : List Hop} :
    p ∈ pathsFrom g spec none start fuel [] ↔ Admitted g spec start p := by
  rw [mem_pathsFrom chain_nil]
  constructor
  · rintro ⟨q, -, -, hchain, hanswers⟩
    obtain ⟨hwalk, hadmits, hallows⟩ := chain_iff.1 hchain
    rw [VarSpec.answers, decide_eq_true_eq] at hanswers
    exact ⟨hwalk, hadmits, hanswers.1, hallows, hanswers.2⟩
  · intro h
    have hchain := chain_iff.2 ⟨h.walk, h.admits, h.allows⟩
    refine ⟨p, (List.append_nil p).symm, hfuel p hchain, hchain, ?_⟩
    rw [VarSpec.answers, decide_eq_true_eq]
    exact ⟨h.min_le, h.table⟩

theorem PathMode.admits_of_nodup (mode : PathMode) {p : List Hop}
    (h : IsWalk (Takes g spec) start p) (hnodup : (nodes start p).Nodup) :
    mode.Admits start p := by
  cases mode with
  | walk => trivial
  | trail => exact nodup_edges takes_joins h hnodup
  | simple =>
      obtain ⟨hnew, -, hapart⟩ := List.nodup_append.1 hnodup
      refine ⟨hnew, fun hmem => ?_⟩
      exact hapart start (List.mem_of_mem_tail hmem) start (List.mem_singleton_self start) rfl
  | acyclic => exact hnodup

/-! ### How far a node is -/

variable (g spec) in
/-- Two nodes with an edge between them that the step takes. -/
def Adjacent (u v : NodeAt) : Prop := ∃ e, Takes g spec u e v

theorem level_mem_places {d : ℕ} {v : NodeAt}
    (h : Level (Adjacent g spec) (· = start) d v) : v ∈ places g spec.rels start := by
  obtain ⟨p, hwalk, -, rfl⟩ := hops_iff.1 h.1
  exact ended_mem_places hwalk

/-- What is within the last round is what is so many hops away as the step allows. -/
theorem within_last {last : ℕ} (hallows : spec.Allows last)
    (hlast : (∀ v, ¬ Level (Adjacent g spec) (· = start) last v) ∨ spec.full last = true)
    (v : NodeAt) : Within (Adjacent g spec) (· = start) last v ↔
      ∃ p, IsWalk (Takes g spec) start p ∧ spec.Allows p.length ∧ ended start p = v := by
  constructor
  · rintro ⟨d, hd, hops⟩
    obtain ⟨p, hwalk, rfl, hended⟩ := hops_iff.1 hops
    exact ⟨p, hwalk, fun m hm => hd.trans (hallows m hm), hended⟩
  · rintro ⟨p, hwalk, hlen, hended⟩
    have hwithin : Within (Adjacent g spec) (· = start) p.length v :=
      ⟨p.length, Nat.le_refl _, hops_iff.2 ⟨p, hwalk, rfl, hended⟩⟩
    obtain hempty | hfull := hlast
    · exact within_of_empty hempty p.length hwithin
    · obtain ⟨m, hm, hle⟩ := VarSpec.full_eq_true.1 hfull
      obtain ⟨d, hd, hops⟩ := hwithin
      exact ⟨d, (hd.trans (hlen m hm)).trans hle, hops⟩

/-! ### How often a path is found -/

/-- In how many ways the hops of a walk are taken: parallel edges that no name tells apart are
as many hops. -/
def weight (next : NodeAt → List Hop) (start : NodeAt) : List Hop → ℕ
  | [] => 1
  | hop :: p => weight next start p * (next (ended start p)).count hop

theorem weight_append (next : NodeAt → List Hop) (q p : List Hop) :
    weight next start (q ++ p) = weight next (ended start p) q * weight next start p := by
  induction q with
  | nil => simp [weight]
  | cons hop q ih =>
      rw [List.cons_append, weight, weight, ih, ended_append, Nat.mul_right_comm]

theorem sum_map_of_single {α : Type} [BEq α] [LawfulBEq α] {f : α → ℕ} {a : α} {l : List α}
    (h : ∀ b ∈ l, b ≠ a → f b = 0) : (l.map f).sum = l.count a * f a := by
  induction l with
  | nil => simp
  | cons b l ih =>
      obtain ⟨hb, hrest⟩ := List.forall_mem_cons.1 h
      rw [List.map_cons, List.sum_cons, ih hrest, List.count_cons]
      by_cases heq : b = a
      · rw [heq, if_pos (beq_self_eq_true a), Nat.add_mul, Nat.one_mul, Nat.add_comm]
      · rw [hb heq, if_neg (by simpa using heq), Nat.zero_add, Nat.add_zero]

/-- A search finds what it holds when it goes on, as often as there are ways to. -/
theorem count_pathsFrom {fuel : ℕ} {link q : List Hop} (hlink : Chain g spec steps start link)
    (hchain : Chain g spec steps start (q ++ link)) (hanswers : spec.answers start (q ++ link) = true)
    (hlen : q.length < fuel) : (pathsFrom g spec steps start fuel link).count (q ++ link) =
      weight (VarSpec.next g spec steps) (ended start link) q := by
  induction fuel generalizing link q with
  | zero => exact absurd hlen (Nat.not_lt_zero _)
  | succ fuel ih =>
      have hlonger : ∀ hop : Hop, Chain g spec steps start (hop :: link) →
          ∀ p ∈ pathsFrom g spec steps start fuel (hop :: link),
            ∃ q', p = q' ++ hop :: link := by
        intro hop hhop p hp
        obtain ⟨q', hq', -⟩ := (mem_pathsFrom hhop).1 hp
        exact ⟨q', hq'⟩
      rw [pathsFrom, List.count_append]
      obtain rfl | ⟨q, hop, rfl⟩ := q.eq_nil_or_concat'
      · rw [List.nil_append] at hanswers ⊢
        rw [if_pos hanswers, List.count_singleton_self, weight, Nat.add_eq_left]
        apply List.count_eq_zero.2
        intro hmem
        split at hmem
        case isTrue => exact absurd hmem List.not_mem_nil
        case isFalse hon =>
          rw [Bool.or_eq_true, not_or, Bool.not_eq_true, Bool.not_eq_true] at hon
          obtain ⟨hop, hhop, hmem⟩ := List.mem_flatMap.1 hmem
          split at hmem
          case isTrue => exact absurd hmem List.not_mem_nil
          case isFalse hnew =>
            rw [Bool.not_eq_true] at hnew
            obtain ⟨q', hq'⟩ := hlonger hop ⟨hlink, hon.1, hon.2, hhop, hnew⟩ _ hmem
            have hlen := congrArg List.length hq'
            rw [List.length_append, List.length_cons] at hlen
            omega
      · rw [List.append_assoc, List.singleton_append] at hchain hanswers ⊢
        obtain ⟨-, hfull, hclosed, hhop, hnew⟩ := hchain.of_append
        have hfirst : (if spec.answers start link then [link] else []).count (q ++ hop :: link) = 0 := by
          apply List.count_eq_zero.2
          intro hmem
          split at hmem
          · have hlen := congrArg List.length (List.mem_singleton.1 hmem)
            rw [List.length_append, List.length_cons] at hlen
            omega
          · exact absurd hmem List.not_mem_nil
        rw [hfirst, Nat.zero_add, if_neg (by simp [hfull, hclosed]), List.count_flatMap]
        rw [sum_map_of_single (a := hop)]
        · rw [Function.comp_apply, if_neg (by simp [hnew]), ih hchain.of_append hchain hanswers,
            weight_append, weight, weight, Nat.one_mul, ended, Nat.mul_comm]
          · rfl
          · rw [List.length_append] at hlen
            exact Nat.lt_of_succ_lt_succ hlen
        · intro hop' hhop' hne
          rw [Function.comp_apply]
          apply List.count_eq_zero.2
          intro hmem
          split at hmem
          case isTrue => exact absurd hmem List.not_mem_nil
          case isFalse hnew' =>
            rw [Bool.not_eq_true] at hnew'
            obtain ⟨q', hq'⟩ := hlonger hop' ⟨hlink, hfull, hclosed, hhop', hnew'⟩ _ hmem
            have heq : q ++ [hop] = q' ++ [hop'] := by
              apply @List.append_cancel_right _ _ link
              simpa using hq'
            exact hne (List.append_inj_right' heq rfl |> List.singleton_injective).symm

end Zu.Query
