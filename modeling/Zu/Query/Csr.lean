import Mathlib

/-!
# Compressed rows

The adjacency of a graph: the sorted list of its edges, and for each node where its
neighbors start.
-/

namespace Zu

namespace Query

structure Csr where
  offsets : List ℕ
  neighbors : List ℕ

/-- An edge, from its source to its destination. -/
abbrev Edge := ℕ × ℕ

def Edge.le (a b : Edge) : Bool := a.1 < b.1 || (a.1 == b.1 && a.2 ≤ b.2)

def dedup : List Edge → List Edge
  | [] => []
  | [e] => [e]
  | e :: f :: es => if e = f then dedup (f :: es) else e :: dedup (f :: es)

/-- The edges that leave each node, counted one place on. -/
def countSources (n : ℕ) (edges : List Edge) : List ℕ :=
  edges.foldl (fun offsets e => offsets.modify (e.1 + 1) (· + 1)) (List.replicate (n + 1) 0)

/-- Counts added up, from a total on. -/
def runningTotals : List ℕ → ℕ → List ℕ
  | [], _ => []
  | o :: os, total => (total + o) :: runningTotals os (total + o)

namespace Csr

def build (n : ℕ) (edges : List Edge) : Csr :=
  let edges := dedup (edges.mergeSort Edge.le)
  let counts := countSources n edges
  ⟨counts.take 1 ++ runningTotals (counts.drop 1) 0, edges.map Prod.snd⟩

def nodeCount (g : Csr) : ℕ := g.offsets.length - 1

def row (g : Csr) (v : ℕ) : List ℕ :=
  (g.neighbors.take (g.offsets.getD (v + 1) 0)).drop (g.offsets.getD v 0)

def reversed (g : Csr) : Csr :=
  build g.nodeCount ((List.range g.nodeCount).flatMap fun v => (g.row v).map fun w => (w, v))

end Csr

/-! ### Edges in order -/

theorem mem_dedup {e : Edge} (es : List Edge) : e ∈ dedup es ↔ e ∈ es := by
  induction es using dedup.induct with
  | case1 => rfl
  | case2 f => rfl
  | case3 f es ih =>
      rw [dedup, if_pos rfl, ih]
      simp
  | case4 f g es hne ih =>
      rw [dedup, if_neg hne, List.mem_cons, ih, List.mem_cons (a := e) (b := f)]

/-- What is left of edges in order are different edges in order. -/
theorem dedup_strict {es : List Edge} (h : es.Pairwise fun a b => Edge.le a b = true) :
    (dedup es).Pairwise fun a b => a.1 < b.1 ∨ a.1 = b.1 ∧ a.2 < b.2 := by
  induction es using dedup.induct with
  | case1 => exact List.Pairwise.nil
  | case2 e => exact List.pairwise_singleton _ e
  | case3 e es ih =>
      rw [dedup, if_pos rfl]
      exact ih (List.pairwise_cons.1 h).2
  | case4 e f es hne ih =>
      rw [dedup, if_neg hne, List.pairwise_cons]
      obtain ⟨hfirst, hrest⟩ := List.pairwise_cons.1 h
      refine ⟨fun a ha => ?_, ih hrest⟩
      have hf := hfirst f List.mem_cons_self
      have hfa : Edge.le f a = true ∨ f = a := by
        rcases List.mem_cons.1 ((mem_dedup _).1 ha) with rfl | hin
        · exact Or.inr rfl
        · exact Or.inl ((List.pairwise_cons.1 hrest).1 a hin)
      obtain ⟨e₁, e₂⟩ := e
      obtain ⟨f₁, f₂⟩ := f
      obtain ⟨a₁, a₂⟩ := a
      simp only [Edge.le, Bool.or_eq_true, decide_eq_true_eq, Bool.and_eq_true, beq_iff_eq,
        Prod.mk.injEq] at hf hfa hne ⊢
      omega

theorem edges_strict (es : List Edge) :
    (dedup (es.mergeSort Edge.le)).Pairwise fun a b => a.1 < b.1 ∨ a.1 = b.1 ∧ a.2 < b.2 := by
  apply dedup_strict
  apply List.pairwise_mergeSort
  · intro a b c hab hbc
    simp [Edge.le] at hab hbc ⊢
    omega
  · intro a b
    simp [Edge.le]
    omega

theorem edges_sorted (es : List Edge) :
    (dedup (es.mergeSort Edge.le)).Pairwise fun a b => a.1 ≤ b.1 := by
  refine (edges_strict es).imp ?_
  intro a b hab
  omega

theorem mem_edges {e : Edge} (es : List Edge) : e ∈ dedup (es.mergeSort Edge.le) ↔ e ∈ es := by
  rw [mem_dedup, List.mem_mergeSort]

/-! ### Counting -/

theorem length_countSources (n : ℕ) (es : List Edge) : (countSources n es).length = n + 1 := by
  rw [countSources]
  induction es using List.reverseRecOn with
  | nil => simp
  | append_singleton es e ih => simpa [List.foldl_append] using ih

/-- Where the edges leave nodes of the graph, each node's are counted. -/
theorem getD_countSources {n : ℕ} (es : List Edge) (v : ℕ) (hv : v ≤ n) :
    (countSources n es).getD v 0 = es.countP fun e => e.1 + 1 == v := by
  rw [countSources]
  induction es using List.reverseRecOn with
  | nil =>
      have hlt : v < n + 1 := Nat.lt_succ_of_le hv
      simp [List.getD_eq_getElem?_getD, hlt]
  | append_singleton es e ih =>
      have hlen : v < (countSources n es).length := by
        rw [length_countSources]
        omega
      rw [countSources] at hlen
      rw [List.foldl_append, List.countP_append, ← ih]
      by_cases hev : e.1 + 1 = v
      · simp [hev, List.getD_eq_getElem?_getD, List.getElem?_eq_getElem hlen]
      · simp [hev, List.getD_eq_getElem?_getD]

theorem getD_runningTotals (os : List ℕ) (total i : ℕ) (hi : i < os.length) :
    (runningTotals os total).getD i 0 = total + (os.take (i + 1)).sum := by
  induction os generalizing total i with
  | nil => exact absurd hi (Nat.not_lt_zero i)
  | cons o os ih =>
      cases i with
      | zero => simp [runningTotals]
      | succ i =>
          have := ih (total + o) i (Nat.lt_of_succ_lt_succ hi)
          rw [runningTotals, List.getD_cons_succ, this, List.take_succ_cons, List.sum_cons,
            Nat.add_assoc]

theorem length_runningTotals (os : List ℕ) (total : ℕ) :
    (runningTotals os total).length = os.length := by
  induction os generalizing total with
  | nil => rfl
  | cons o os ih => rw [runningTotals, List.length_cons, ih, List.length_cons]

theorem length_offsets (n : ℕ) (es : List Edge) : (Csr.build n es).offsets.length = n + 1 := by
  simp [Csr.build, length_runningTotals, length_countSources, Nat.add_comm]

theorem nodeCount_build (n : ℕ) (es : List Edge) : (Csr.build n es).nodeCount = n := by
  rw [Csr.nodeCount, length_offsets, Nat.add_sub_cancel]

theorem sum_take_countSources {n : ℕ} (es : List Edge) (v : ℕ) (hv : v ≤ n) :
    ((countSources n es).take (v + 1)).sum = es.countP fun e => e.1 < v := by
  have hlen := length_countSources n es
  have hget : ∀ k (hk : k ≤ n), (countSources n es)[k]? =
      some (es.countP fun e => e.1 + 1 == k) := by
    intro k hk
    have hlt : k < (countSources n es).length := by omega
    rw [← getD_countSources es k hk, List.getD_eq_getElem?_getD, List.getElem?_eq_getElem hlt]
    rfl
  induction v with
  | zero =>
      have h0 := hget 0 hv
      rw [List.take_add_one, h0]
      simp
  | succ v ih =>
      rw [List.take_add_one, hget (v + 1) hv, List.sum_append, ih (by omega)]
      simp only [Option.toList_some, List.sum_singleton]
      have hsplit : (es.countP fun e => e.1 < v + 1) =
          (es.countP fun e => e.1 < v) + es.countP fun e => e.1 + 1 == v + 1 := by
        clear ih hget hlen
        induction es with
        | nil => rfl
        | cons e es ih =>
            simp only [List.countP_cons, ih]
            rcases Nat.lt_trichotomy e.1 v with hlt | heq | hgt
            · simp [hlt, Nat.lt_succ_of_lt hlt, Nat.ne_of_lt hlt]
              omega
            · simp [heq]
              omega
            · simp [Nat.not_lt_of_gt hgt, Nat.not_lt_of_ge hgt, Nat.ne_of_gt hgt]
      rw [hsplit]

/-- A node's neighbors start behind those of the nodes before it. -/
theorem getD_offsets {n : ℕ} (es : List Edge) (v : ℕ) (hv : v ≤ n) :
    (Csr.build n es).offsets.getD v 0 =
      (dedup (es.mergeSort Edge.le)).countP fun e => e.1 < v := by
  obtain ⟨edges, hedges⟩ : ∃ edges, edges = dedup (es.mergeSort Edge.le) := ⟨_, rfl⟩
  have hsum := sum_take_countSources edges v hv
  have hlen := length_countSources n edges
  rw [Csr.build, ← hedges]
  dsimp only
  obtain ⟨o, os, hcounts⟩ : ∃ o os, countSources n edges = o :: os := by
    cases h : countSources n edges with
    | nil =>
        rw [h] at hlen
        cases hlen
    | cons o os => exact ⟨o, os, rfl⟩
  have hfirst : o = 0 := by
    have h0 := sum_take_countSources edges 0 (Nat.zero_le n)
    rw [hcounts] at h0
    simpa using h0
  rw [hcounts] at hsum hlen ⊢
  rw [← hsum, hfirst]
  cases v with
  | zero => simp
  | succ v =>
      have hv' : v < os.length := by
        rw [List.length_cons] at hlen
        omega
      have hrun := getD_runningTotals os 0 v hv'
      rw [Nat.zero_add] at hrun
      have htake : ((0 :: os).take (v + 1 + 1)).sum = (os.take (v + 1)).sum := by simp
      rw [htake, ← hrun]
      rfl

/-! ### Rows -/

/-- The first of a list in order, as many as satisfy what only the first satisfy. -/
theorem take_countP {α : Type*} {p : α → Bool} {l : List α}
    (h : l.Pairwise fun a b => p b = true → p a = true) :
    l.take (l.countP p) = l.filter p ∧ l.drop (l.countP p) = l.filter fun a => !p a := by
  induction l with
  | nil => exact ⟨rfl, rfl⟩
  | cons a l ih =>
      rw [List.pairwise_cons] at h
      obtain ⟨htake, hdrop⟩ := ih h.2
      cases ha : p a with
      | true => simp [ha, htake, hdrop]
      | false =>
          have hnone : ∀ b ∈ l, p b = false := by
            intro b hb
            by_contra hpb
            rw [Bool.not_eq_false] at hpb
            rw [h.1 b hb hpb] at ha
            cases ha
          have hzero : l.countP p = 0 := List.countP_eq_zero.2 fun b hb => by simp [hnone b hb]
          rw [hzero] at hdrop
          simp only [List.drop_zero] at hdrop
          simp [ha, hzero, ← hdrop]
          exact hnone

/-- The neighbors of a node are the destinations of the edges that leave it. -/
theorem row_build {n : ℕ} (es : List Edge) {v : ℕ} (hv : v < n) :
    (Csr.build n es).row v =
      (((dedup (es.mergeSort Edge.le)).filter fun e => e.1 < v + 1).filter
        fun e => !decide (e.1 < v)).map Prod.snd := by
  have hsorted := edges_sorted es
  have hdown : ∀ k : ℕ, ∀ l : List Edge, l.Pairwise (fun a b => a.1 ≤ b.1) →
      l.Pairwise fun a b => decide (b.1 < k) = true → decide (a.1 < k) = true := by
    intro k l hl
    refine hl.imp ?_
    intro a b hab hb
    simp only [decide_eq_true_eq] at hb ⊢
    omega
  rw [Csr.row, getD_offsets es (v + 1) hv, getD_offsets es v hv.le]
  simp only [Csr.build]
  rw [← List.map_take, (take_countP (hdown (v + 1) _ hsorted)).1, ← List.map_drop]
  have hcount : ((dedup (es.mergeSort Edge.le)).countP fun e => decide (e.1 < v)) =
      ((dedup (es.mergeSort Edge.le)).filter fun e => e.1 < v + 1).countP fun e => e.1 < v := by
    rw [List.countP_filter]
    apply List.countP_congr
    intro e _
    simp
    omega
  rw [hcount, (take_countP (hdown v _ (hsorted.filter _))).2]

theorem mem_row_build {n : ℕ} {es : List Edge} {v w : ℕ} (hv : v < n) :
    w ∈ (Csr.build n es).row v ↔ (v, w) ∈ es := by
  rw [row_build es hv, List.mem_map]
  constructor
  · rintro ⟨⟨a, b⟩, he, rfl⟩
    rw [List.mem_filter, List.mem_filter, mem_edges] at he
    simp at he
    obtain rfl : a = v := by omega
    exact he.1.1
  · intro he
    refine ⟨(v, w), ?_, rfl⟩
    rw [List.mem_filter, List.mem_filter, mem_edges]
    simp [he]

end Query

end Zu

/-!
## Networks

Nodes and the edges between them, as a caller gives them, and what the compressed rows that
are built of them and reversed say.
-/

namespace Zu

namespace Query

/-- The rows of a graph lead to nodes of it. -/
def Csr.Sound (g : Csr) : Prop := ∀ v < g.nodeCount, ∀ w ∈ g.row v, w < g.nodeCount

/-- The rows of `rev` are those of `g`, against the edges. -/
def Csr.Reverses (rev g : Csr) : Prop :=
  rev.nodeCount = g.nodeCount ∧
    ∀ w < g.nodeCount, ∀ v, v ∈ rev.row w ↔ v < g.nodeCount ∧ w ∈ g.row v

/-- An edge of a graph. -/
def Csr.Adj (g : Csr) (v w : ℕ) : Prop := v < g.nodeCount ∧ w ∈ g.row v

def Csr.edges (g : Csr) : List Edge :=
  (List.range g.nodeCount).flatMap fun v => (g.row v).map fun w => (v, w)

variable {g rev : Csr}

theorem Csr.mem_edges {e : Edge} : e ∈ g.edges ↔ g.Adj e.1 e.2 := by
  rw [Csr.edges, List.mem_flatMap, Csr.Adj]
  simp only [List.mem_range, List.mem_map]
  constructor
  · rintro ⟨v, hv, w, hw, rfl⟩
    exact ⟨hv, hw⟩
  · rintro ⟨hv, hw⟩
    exact ⟨e.1, hv, e.2, hw, rfl⟩

section

variable {n : ℕ} {edges : List Edge} (hedges : ∀ e ∈ edges, e.1 < n ∧ e.2 < n)

include hedges

theorem Csr.build_sound : (Csr.build n edges).Sound := by
  intro v hv w hw
  rw [nodeCount_build] at hv ⊢
  exact (hedges (v, w) ((mem_row_build hv).1 hw)).2

theorem Csr.build_adj : (Csr.build n edges).Adj = fun v w => (v, w) ∈ edges := by
  funext v w
  apply propext
  rw [Csr.Adj, nodeCount_build]
  constructor
  · rintro ⟨hv, hw⟩
    exact (mem_row_build hv).1 hw
  · intro he
    have hv := (hedges (v, w) he).1
    exact ⟨hv, (mem_row_build hv).2 he⟩

end

theorem Csr.reversed_reverses (g : Csr) : g.reversed.Reverses g := by
  refine ⟨nodeCount_build _ _, fun w hw v => ?_⟩
  rw [Csr.reversed, mem_row_build hw, List.mem_flatMap]
  simp only [List.mem_range, List.mem_map, Prod.mk.injEq]
  constructor
  · rintro ⟨u, hu, w', hw', rfl, rfl⟩
    exact ⟨hu, hw'⟩
  · rintro ⟨hv, hw'⟩
    exact ⟨v, hv, w, hw', rfl, rfl⟩

theorem Csr.Reverses.sound (h : rev.Reverses g) : rev.Sound := by
  intro w hw v hv
  rw [h.1] at hw ⊢
  exact ((h.2 w hw v).1 hv).1

theorem Csr.Reverses.adj (h : rev.Reverses g) (hg : g.Sound) :
    rev.Adj = fun w v => g.Adj v w := by
  funext w v
  apply propext
  rw [Csr.Adj, Csr.Adj, h.1]
  constructor
  · rintro ⟨hw, hv⟩
    exact (h.2 w hw v).1 hv
  · rintro ⟨hv, hrow⟩
    have hw := hg v hv w hrow
    exact ⟨hw, (h.2 w hw v).2 ⟨hv, hrow⟩⟩

/-- Nodes whose numbers are words of thirty-two bits, and edges between them. -/
structure Network where
  nodes : ℕ
  edges : List Edge
  nodes_lt : nodes < 2 ^ 32
  edges_lt : ∀ e ∈ edges, e.1 < nodes ∧ e.2 < nodes

namespace Network

variable (x : Network)

/-- The compressed rows of a network. -/
def csr : Csr := Csr.build x.nodes x.edges

theorem nodeCount_csr : x.csr.nodeCount = x.nodes := nodeCount_build x.nodes x.edges

theorem csr_sound : x.csr.Sound := Csr.build_sound x.edges_lt

theorem csr_adj : x.csr.Adj = fun v w => (v, w) ∈ x.edges := Csr.build_adj x.edges_lt

end Network

end Query

end Zu
