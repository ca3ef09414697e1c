import Zu.Lib.Forest
import Zu.Lib.Loop
import Zu.Query.Csr

/-!
# Components

The nodes that edges join, whatever their direction. A node's label is the root of a tree
of parents; a look for a root gives what it passes the parent of its parent, and an edge
puts the greater of two roots below the other.
-/

namespace Zu.Query

open Lib

/-- What the loop of `find` does at a node. -/
def findTurn (st : List ℕ × ℕ) : Except (Stop Unit) (List ℕ × ℕ) ⊕ (List ℕ × ℕ) :=
  match st.1[st.2]? with
  | none => .inl (.error .panicked)
  | some p =>
      if p = st.2 then .inl (.ok st)
      else
        match st.1[p]? with
        | none => .inl (.error .panicked)
        | some grand => .inr (st.1.set st.2 grand, grand)

/-- `find`: what it leaves of the parents, and the root. -/
def find (turns : ℕ) (parent : List ℕ) (v : ℕ) : Turns (List ℕ × ℕ) :=
  ExceptT.mk (loop findTurn turns (parent, v))

/-- What `wcc` does at an edge. -/
def unite (turns : ℕ) (parent : List ℕ) (e : Edge) : Turns (List ℕ) := do
  let (parent, a) ← find turns parent e.1
  let (parent, b) ← find turns parent e.2
  match compare a b with
  | .lt => return parent.set b a
  | .gt => return parent.set a b
  | .eq => return parent

/-- The label of a node, after those before it. -/
def label (turns : ℕ) (st : List ℕ × List ℕ) (v : ℕ) : Turns (List ℕ × List ℕ) := do
  let (parent, root) ← find turns st.1 v
  return (parent, st.2 ++ [root])

def wcc (turns : ℕ) (csr : Csr) : Turns (List ℕ) := do
  let parent ← csr.edges.foldlM (unite turns) (List.range csr.nodeCount)
  let st ← (List.range csr.nodeCount).foldlM (label turns) (parent, [])
  return st.2

/-! ### A look for a root -/

open Forest

/-- What a look for a root keeps of the parents: the trees and the roots. -/
structure Kept (before after : List ℕ) : Prop where
  ordered : Ordered after
  length : after.length = before.length
  same : Same after = Same before
  root : ∀ r, Root before r → Root after r

theorem Kept.refl {parent : List ℕ} (h : Ordered parent) : Kept parent parent :=
  ⟨h, rfl, rfl, fun _ hr => hr⟩

theorem Kept.trans {a b c : List ℕ} (h : Kept a b) (h' : Kept b c) : Kept a c :=
  ⟨h'.ordered, h'.length.trans h.length, h'.same.trans h.same, fun r hr => h'.root r (h.root r hr)⟩

theorem find_returns {parent : List ℕ} (h : Ordered parent) {v turns : ℕ} (hv : v < parent.length)
    (hturns : v < turns) : Returns (find turns parent v) fun found =>
      Kept parent found.1 ∧ Root found.1 found.2 ∧ Same parent v found.2 ∧
        found.2 < parent.length := by
  have hturn : ∀ st : List ℕ × ℕ,
      (Kept parent st.1 ∧ Same parent v st.2 ∧ st.2 < parent.length) →
      (∃ r, findTurn st = .inl r ∧ ∃ found, r = .ok found ∧ Kept parent found.1 ∧
        Root found.1 found.2 ∧ Same parent v found.2 ∧ found.2 < parent.length) ∨
      ∃ next, findTurn st = .inr next ∧
        (Kept parent next.1 ∧ Same parent v next.2 ∧ next.2 < parent.length) ∧ next.2 < st.2 := by
    rintro ⟨now, u⟩ ⟨hkept, hsame, hu⟩
    have hlen := hkept.length
    obtain ⟨p, hp, hparent⟩ := hkept.ordered u (by rwa [hlen])
    rcases eq_or_ne p u with rfl | hne
    · refine Or.inl ⟨.ok (now, p), ?_, (now, p), rfl, hkept, hparent, hsame, hu⟩
      simp only [findTurn, hparent, if_true]
    · have hless : p < u := Nat.lt_of_le_of_ne hp hne
      obtain ⟨grand, hgrand, hgrandparent⟩ := hkept.ordered p (by rw [hlen]; exact hless.trans hu)
      have hhalve := same_halve hparent hgrandparent hne
      have hnot : ¬ Root now u := by
        intro hroot
        rw [Root, hparent, Option.some.injEq] at hroot
        exact hne hroot
      refine Or.inr ⟨(now.set u grand, grand), ?_, ⟨⟨?_, ?_, ?_, fun r hr => ?_⟩, ?_, ?_⟩, ?_⟩
      · simp only [findTurn, hparent, if_neg hne, hgrandparent]
      · exact hkept.ordered.set (hgrand.trans hp)
      · rw [List.length_set, hlen]
      · exact hhalve.trans hkept.same
      · exact root_set hnot (hkept.root r hr)
      · have hup : Same now u grand := (same_of_parent hparent).trans (same_of_parent hgrandparent)
        rw [hkept.same] at hup
        exact hsame.trans hup
      · exact (Nat.lt_of_le_of_lt hgrand hless).trans hu
      · exact Nat.lt_of_le_of_lt hgrand hless
  obtain ⟨r, hr, found, rfl, hfound⟩ := loop_ends hturn (s := (parent, v))
    ⟨Kept.refl h, .refl v, hv⟩ hturns
  exact ⟨found, hr, hfound⟩

/-! ### The edges -/

/-- The trees are what these edges join. -/
structure Joins (n : ℕ) (edges : List Edge) (parent : List ℕ) : Prop where
  ordered : Ordered parent
  length : parent.length = n
  same : ∀ u v, Same parent u v ↔ Relation.EqvGen (fun u v => (u, v) ∈ edges) u v

theorem Kept.joins {n : ℕ} {edges : List Edge} {before after : List ℕ} (h : Kept before after)
    (hjoins : Joins n edges before) : Joins n edges after := by
  refine ⟨h.ordered, h.length.trans hjoins.length, fun u v => ?_⟩
  rw [h.same]
  exact hjoins.same u v

theorem joins_start (n : ℕ) : Joins n [] (List.range n) := by
  have hget : ∀ i < n, (List.range n)[i]? = some i := fun i hi => List.getElem?_range hi
  refine ⟨fun i hi => ?_, List.length_range, fun u v => ?_⟩
  · rw [List.length_range] at hi
    exact ⟨i, Nat.le_refl i, hget i hi⟩
  · constructor
    · apply eqvGen_lift
      intro i p hp
      have hi := (List.getElem?_eq_some_iff.1 hp).1
      rw [List.length_range] at hi
      rw [hget i hi, Option.some.injEq] at hp
      rw [hp]
      exact .refl p
    · apply eqvGen_lift
      intro i j hij
      exact absurd hij List.not_mem_nil

theorem Joins.link {n : ℕ} {edges : List Edge} {parent : List ℕ} (h : Joins n edges parent)
    {e : Edge} {lower upper : ℕ} (hle : lower ≤ upper) (hupper : Root parent upper)
    (hends : Same parent e.1 lower ∧ Same parent e.2 upper ∨
      Same parent e.1 upper ∧ Same parent e.2 lower) :
    Joins n (edges ++ [e]) (parent.set upper lower) := by
  refine ⟨h.ordered.set hle, ?_, fun u v => ?_⟩
  · rw [List.length_set, h.length]
  · rw [same_link hupper]
    have hmore : ∀ {i j}, Same parent i j →
        Relation.EqvGen (fun u v => (u, v) ∈ edges ++ [e]) i j := by
      intro i j hij
      rw [h.same] at hij
      exact Relation.EqvGen.mono (fun _ _ hin => List.mem_append_left _ hin) i j hij
    have hedge : Relation.EqvGen (fun u v => (u, v) ∈ edges ++ [e]) e.1 e.2 :=
      .rel _ _ (List.mem_append_right _ List.mem_cons_self)
    have hold : ∀ {i j}, Same parent i j →
        Relation.EqvGen (fun i j => Same parent i j ∨ i = lower ∧ j = upper) i j :=
      fun hij => .rel _ _ (Or.inl hij)
    have hnew : Relation.EqvGen (fun i j => Same parent i j ∨ i = lower ∧ j = upper) lower upper :=
      .rel _ _ (Or.inr ⟨rfl, rfl⟩)
    constructor
    · apply eqvGen_lift
      rintro i j (hij | ⟨rfl, rfl⟩)
      · exact hmore hij
      · rcases hends with ⟨hl, hu⟩ | ⟨hu, hl⟩
        · exact ((hmore hl.symm).trans _ _ _ hedge).trans _ _ _ (hmore hu)
        · exact ((hmore hl.symm).trans _ _ _ hedge.symm).trans _ _ _ (hmore hu)
    · apply eqvGen_lift
      intro i j hij
      rcases List.mem_append.1 hij with hin | hin
      · exact hold ((h.same i j).2 (.rel _ _ hin))
      · rw [List.mem_singleton] at hin
        subst hin
        rcases hends with ⟨hl, hu⟩ | ⟨hu, hl⟩
        · exact ((hold hl).trans _ _ _ hnew).trans _ _ _ (hold hu.symm)
        · exact ((hold hu).trans _ _ _ hnew.symm).trans _ _ _ (hold hl.symm)

/-- An edge between nodes of one tree joins nothing more. -/
theorem Joins.again {n : ℕ} {edges : List Edge} {parent : List ℕ} (h : Joins n edges parent)
    {e : Edge} (he : Same parent e.1 e.2) : Joins n (edges ++ [e]) parent := by
  refine ⟨h.ordered, h.length, fun u v => ?_⟩
  rw [h.same]
  constructor
  · exact Relation.EqvGen.mono (fun _ _ hin => List.mem_append_left _ hin) u v
  · apply eqvGen_lift
    intro i j hij
    rcases List.mem_append.1 hij with hin | hin
    · exact .rel _ _ hin
    · rw [List.mem_singleton] at hin
      subst hin
      exact (h.same _ _).1 he

theorem unite_returns {n turns : ℕ} (hturns : n ≤ turns) {edges : List Edge} {parent : List ℕ}
    (h : Joins n edges parent) {e : Edge} (he : e.1 < n ∧ e.2 < n) :
    Returns (unite turns parent e) (Joins n (edges ++ [e])) := by
  have hlen := h.length
  refine Returns.bind (find_returns h.ordered (by rw [hlen]; exact he.1) (he.1.trans_le hturns)) ?_
  rintro ⟨first, a⟩ ⟨hkept, hroot, hsame, -⟩
  have hlen' : first.length = n := hkept.length.trans hlen
  refine Returns.bind (find_returns hkept.ordered (by rw [hlen']; exact he.2)
    (he.2.trans_le hturns)) ?_
  rintro ⟨second, b⟩ ⟨hkept', hroot', hsame', -⟩
  have hboth := hkept.trans hkept'
  have hjoins := hboth.joins h
  have hra : Root second a := hkept'.root a hroot
  have hrb : Root second b := hroot'
  have hsa : Same second e.1 a := by
    rw [hboth.same]
    exact hsame
  have hsb : Same second e.2 b := by
    rw [hkept'.same]
    exact hsame'
  cases hcmp : compare a b with
  | lt =>
      have hlt : a < b := Nat.compare_eq_lt.1 hcmp
      simp only [hcmp]
      exact Returns.pure (hjoins.link hlt.le hrb (Or.inl ⟨hsa, hsb⟩))
  | gt =>
      have hlt : b < a := Nat.compare_eq_gt.1 hcmp
      simp only [hcmp]
      exact Returns.pure (hjoins.link hlt.le hra (Or.inr ⟨hsa, hsb⟩))
  | eq =>
      have heq : a = b := Nat.compare_eq_eq.1 hcmp
      simp only [hcmp]
      subst heq
      exact Returns.pure (hjoins.again (hsa.trans hsb.symm))

/-! ### The labels -/

/-- The labels of the nodes so far are the roots of their trees. -/
structure Labelled (n : ℕ) (edges : List Edge) (st : List ℕ × List ℕ) : Prop where
  joins : Joins n edges st.1
  label : ∀ (v r : ℕ), st.2[v]? = some r → Root st.1 r ∧ Same st.1 v r

theorem label_returns {n turns : ℕ} (hturns : n ≤ turns) {edges : List Edge}
    {st : List ℕ × List ℕ} (h : Labelled n edges st) (hv : st.2.length < n) :
    Returns (label turns st st.2.length) fun next =>
      Labelled n edges next ∧ next.2.length = st.2.length + 1 := by
  have hlen := h.joins.length
  refine Returns.bind (find_returns h.joins.ordered (by rwa [hlen]) (hv.trans_le hturns)) ?_
  rintro ⟨after, root⟩ ⟨hkept, hroot, hsame, -⟩
  refine Returns.pure ⟨⟨hkept.joins h.joins, fun v r hget => ?_⟩, by simp⟩
  rw [hkept.same]
  rcases Nat.lt_or_ge v st.2.length with hold | hnew
  · rw [List.getElem?_append_left hold] at hget
    obtain ⟨hr, hs⟩ := h.label v r hget
    exact ⟨hkept.root r hr, hs⟩
  · have hlast : v < (st.2 ++ [root]).length := (List.getElem?_eq_some_iff.1 hget).1
    rw [List.length_append, List.length_singleton] at hlast
    obtain rfl : v = st.2.length := Nat.le_antisymm (Nat.le_of_lt_succ hlast) hnew
    rw [List.getElem?_concat_length, Option.some.injEq] at hget
    rw [← hget]
    exact ⟨hroot, hsame⟩

theorem labels_return {n turns : ℕ} (hturns : n ≤ turns) {edges : List Edge} (k : ℕ)
    {st : List ℕ × List ℕ} (h : Labelled n edges st) (hk : st.2.length + k = n) :
    Returns ((List.range' st.2.length k).foldlM (label turns) st) fun next =>
      Labelled n edges next ∧ next.2.length = n := by
  induction k generalizing st with
  | zero => exact Returns.pure ⟨h, hk⟩
  | succ k ih =>
      rw [List.range'_succ, List.foldlM_cons]
      refine Returns.bind (label_returns hturns h (by omega)) ?_
      rintro next ⟨hnext, hlen⟩
      rw [← hlen]
      exact ih hnext (by omega)

/-- The labels of a graph are the least of what its edges join. -/
theorem wcc_returns {g : Csr} (hg : g.Sound) {turns : ℕ} (hturns : g.nodeCount ≤ turns) :
    Returns (wcc turns g) fun labels => labels.length = g.nodeCount ∧
      ∀ (v r : ℕ), labels[v]? = some r → Relation.EqvGen (fun u v => (u, v) ∈ g.edges) v r ∧
        ∀ u, Relation.EqvGen (fun u v => (u, v) ∈ g.edges) u r → r ≤ u := by
  have hedges : ∀ e ∈ g.edges, e.1 < g.nodeCount ∧ e.2 < g.nodeCount := by
    intro e he
    obtain ⟨hv, hw⟩ := Csr.mem_edges.1 he
    exact ⟨hv, hg e.1 hv e.2 hw⟩
  have hstep : ∀ done, ∀ e ∈ g.edges, ∀ parent, Joins g.nodeCount done parent →
      Returns (unite turns parent e) (Joins g.nodeCount (done ++ [e])) :=
    fun done e he parent h => unite_returns hturns h (hedges e he)
  refine Returns.bind (Returns.foldlM g.edges hstep (joins_start _)) fun parent hjoins => ?_
  rw [List.nil_append] at hjoins
  have hstart : Labelled g.nodeCount g.edges (parent, []) :=
    ⟨hjoins, fun v r hget => by simp at hget⟩
  rw [List.range_eq_range']
  refine Returns.bind (labels_return hturns g.nodeCount hstart (Nat.zero_add _)) ?_
  rintro ⟨last, labels⟩ ⟨hlabelled, hlen⟩
  refine Returns.pure ⟨hlen, fun v r hget => ?_⟩
  obtain ⟨hroot, hsame⟩ := hlabelled.label v r hget
  refine ⟨(hlabelled.joins.same v r).1 hsame, fun u hu => ?_⟩
  exact hroot.le hlabelled.joins.ordered ((hlabelled.joins.same u r).2 hu)

namespace Network

variable (x : Network)

/-- The nodes that a path of edges joins, each in either direction. -/
def Joined : ℕ → ℕ → Prop :=
  Relation.ReflTransGen fun v w => (v, w) ∈ x.edges ∨ (w, v) ∈ x.edges

theorem joined_iff (u v : ℕ) :
    Relation.EqvGen (fun u v => (u, v) ∈ x.csr.edges) u v ↔ x.Joined u v := by
  have hmem : (fun u v => (u, v) ∈ x.csr.edges) =
      fun u v => (u, v) ∈ x.edges := by
    rw [← x.csr_adj]
    funext u v
    exact propext Csr.mem_edges
  rw [hmem]
  exact eqvGen_iff_path

/-- Every node is labelled by the least node that is joined to it, and nodes share a label
exactly where they are joined. -/
theorem labels_least (extra : ℕ) : ∃ labels,
    (wcc (x.nodes + extra) x.csr).run = some (.ok labels) ∧
      labels.length = x.nodes ∧
      (∀ v < x.nodes, ∃ r, labels[v]? = some r ∧ x.Joined v r ∧ ∀ u, x.Joined v u → r ≤ u) ∧
      ∀ u < x.nodes, ∀ v < x.nodes, labels[u]? = labels[v]? ↔ x.Joined u v := by
  obtain ⟨labels, hrun, hlen, hlabel⟩ := wcc_returns x.csr_sound
    (show x.csr.nodeCount ≤ x.nodes + extra by
      rw [nodeCount_csr]
      exact Nat.le_add_right _ _)
  rw [nodeCount_csr] at hlen
  simp only [joined_iff] at hlabel
  have hback : ∀ {u v}, x.Joined u v → x.Joined v u := by
    intro u v huv
    rw [← joined_iff] at huv ⊢
    exact huv.symm
  have hleast : ∀ v < x.nodes, ∃ r, labels[v]? = some r ∧ x.Joined v r ∧
      ∀ u, x.Joined v u → r ≤ u := by
    intro v hv
    rw [← hlen] at hv
    obtain ⟨hjoined, hmin⟩ := hlabel v labels[v] (List.getElem?_eq_getElem hv)
    refine ⟨labels[v], List.getElem?_eq_getElem hv, hjoined, fun u hu => hmin u ?_⟩
    exact (hback hu).trans hjoined
  refine ⟨labels, hrun, hlen, hleast, fun u hu v hv => ?_⟩
  obtain ⟨r, hr, hur, hmin⟩ := hleast u hu
  obtain ⟨s, hs, hvs, hmin'⟩ := hleast v hv
  rw [hr, hs, Option.some.injEq]
  constructor
  · rintro rfl
    exact hur.trans (hback hvs)
  · intro huv
    exact Nat.le_antisymm (hmin s (huv.trans hvs)) (hmin' r ((hback huv).trans hur))

end Network

end Zu.Query
