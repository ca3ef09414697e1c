import Zu.Lib.BinarySearch
import Zu.Lib.Triples
import Zu.Lib.Loop
import Zu.Query.Csr

/-!
# Triangles

Three nodes that edges join pairwise, in whatever directions. Each edge is followed from the
end of lower degree, ties by number, and for each the lists of both ends are intersected.
-/

namespace Zu.Query

open Lib Checked

namespace Triangles

def gallopRatio : ℕ := 16

/-- The merge of `intersect_count`. -/
def mergeCount : List ℕ → List ℕ → ℕ
  | a :: as, b :: bs =>
      match compare a b with
      | .lt => mergeCount as (b :: bs)
      | .gt => mergeCount (a :: as) bs
      | .eq => mergeCount as bs + 1
  | [], _ => 0
  | _ :: _, [] => 0
termination_by short long => short.length + long.length

/-- What the probe of `gallop_count` does at a bound. -/
def probeTurn (rest : List ℕ) (x hi : ℕ) : Except (Stop Unit) ℕ ⊕ ℕ :=
  if hi < rest.length then
    match (if hi = 0 then none else rest[hi - 1]?) with
    | none => .inl (.error .panicked)
    | some y => if y < x then .inr (hi * 2 % 2 ^ 64) else .inl (.ok hi)
  else .inl (.ok hi)

/-- The bound that the probe ends at. -/
def probe (turns : ℕ) (rest : List ℕ) (x : ℕ) : Turns ℕ :=
  ExceptT.mk (loop (probeTurn rest x) turns 1)

/-- `gallop_count`, from what is left of both lists. -/
def gallop (turns : ℕ) : List ℕ → List ℕ → ℕ → Turns ℕ
  | [], _, count => pure count
  | x :: short, rest, count => do
      let hi ← probe turns rest x
      let pos := partitionPoint (fun y => decide (y < x)) (rest.take (min hi rest.length))
      let count := if rest[pos]? = some x then count + 1 else count
      if rest.drop pos = [] then pure count else gallop turns short (rest.drop pos) count

def gallopCount (turns : ℕ) (short long : List ℕ) : Turns ℕ := gallop turns short long 0

/-- `intersect_count` of a list and one that is no shorter. -/
def intersectOrdered (turns : ℕ) (short long : List ℕ) : Turns ℕ :=
  if short = [] then pure 0
  else if gallopRatio ≤ long.length / short.length then gallopCount turns short long
  else pure (mergeCount short long)

def intersectCount (turns : ℕ) (a b : List ℕ) : Turns ℕ :=
  if a.length ≤ b.length then intersectOrdered turns a b else intersectOrdered turns b a

/-- The edges of the undirected view, each once. -/
def undirected (csr : Csr) : List Edge :=
  dedup ((csr.edges.filterMap fun e =>
    if e.1 ≠ e.2 then some (min e.1 e.2, max e.1 e.2) else none).mergeSort Edge.le)

def degrees (n : ℕ) (edges : List Edge) : List ℕ :=
  edges.foldl (fun deg e => (deg.modify e.1 (· + 1)).modify e.2 (· + 1)) (List.replicate n 0)

/-- The order that edges are followed in: by degree, then by number. -/
def rank (deg : List ℕ) (v : ℕ) : ℕ ×ₗ ℕ := toLex (deg.getD v 0, v)

/-- The edges, each from its lower end. -/
def forward (csr : Csr) : Csr :=
  let edges := undirected csr
  let deg := degrees csr.nodeCount edges
  Csr.build csr.nodeCount (edges.map fun e => if rank deg e.1 < rank deg e.2 then e else (e.2, e.1))

/-- What an edge that is followed adds to the count. -/
def countEdge (checks : Bool) (turns : ℕ) (fwd : Csr) (count : ℕ) (e : Edge) : Turns ℕ := do
  let more ← intersectCount turns (fwd.row e.1) (fwd.row e.2)
  ExceptT.mk (some (word checks (count + more)))

/-- `triangle_count`, in a build with overflow checks or without. -/
def triangleCount (checks : Bool) (turns : ℕ) (csr : Csr) : Turns ℕ :=
  (forward csr).edges.foldlM (countEdge checks turns (forward csr)) 0

/-! ### What two lists have in common -/

/-- How much of the first list is in the second. -/
def common (a b : List ℕ) : ℕ := a.countP fun x => decide (x ∈ b)

theorem common_eq_card {a b : List ℕ} (ha : a.Nodup) :
    common a b = (a.toFinset ∩ b.toFinset).card := by
  have hfilter : a.toFinset ∩ b.toFinset = (a.filter fun x => decide (x ∈ b)).toFinset := by
    ext x
    simp
  rw [hfilter, List.toFinset_card_of_nodup (ha.filter _), common, List.countP_eq_length_filter]

theorem common_comm {a b : List ℕ} (ha : a.Nodup) (hb : b.Nodup) : common a b = common b a := by
  rw [common_eq_card ha, common_eq_card hb, Finset.inter_comm]

theorem common_congr {xs a b : List ℕ} (h : ∀ x ∈ xs, x ∈ a ↔ x ∈ b) :
    common xs a = common xs b := by
  apply List.countP_congr
  intro x hx
  simp only [decide_eq_true_eq]
  exact h x hx

/-- The merge counts what is common to two ascending lists. -/
theorem mergeCount_eq {a b : List ℕ} (ha : a.Pairwise (· < ·)) (hb : b.Pairwise (· < ·)) :
    mergeCount a b = common a b := by
  fun_induction mergeCount a b with
  | case1 a as b bs hcmp ih =>
      rw [ih (List.pairwise_cons.1 ha).2 hb]
      have hlt : a < b := Nat.compare_eq_lt.1 hcmp
      have hout : a ∉ b :: bs := by
        intro hin
        rcases List.mem_cons.1 hin with rfl | hin
        · exact Nat.lt_irrefl _ hlt
        · exact Nat.lt_asymm hlt ((List.pairwise_cons.1 hb).1 a hin)
      have hneg : ¬ decide (a ∈ b :: bs) = true := by
        rw [decide_eq_true_eq]
        exact hout
      rw [common, common, List.countP_cons, if_neg hneg, Nat.add_zero]
  | case2 a as b bs hcmp ih =>
      rw [ih ha (List.pairwise_cons.1 hb).2]
      have hlt : b < a := Nat.compare_eq_gt.1 hcmp
      refine (common_congr fun x hx => ?_).symm
      have hne : x ≠ b := by
        rintro rfl
        rcases List.mem_cons.1 hx with rfl | hx
        · exact Nat.lt_irrefl _ hlt
        · exact Nat.lt_asymm hlt ((List.pairwise_cons.1 ha).1 x hx)
      simp [hne]
  | case3 a as b bs hcmp ih =>
      obtain rfl : a = b := Nat.compare_eq_eq.1 hcmp
      obtain ⟨ha, has⟩ := List.pairwise_cons.1 ha
      rw [ih has (List.pairwise_cons.1 hb).2]
      have hrest : common as bs = common as (a :: bs) := by
        refine common_congr fun x hx => ?_
        have hne : x ≠ a := Nat.ne_of_gt (ha x hx)
        simp [hne]
      rw [hrest]
      simp [common]
  | case4 b => rfl
  | case5 a as => simp [common]

/-! ### Galloping -/

/-- The probe ends within the list or at an element that is not below. -/
theorem probe_returns {rest : List ℕ} (hlen : rest.length < 2 ^ 63) (x : ℕ) {turns : ℕ}
    (hturns : rest.length < turns) : Returns (probe turns rest x) fun hi =>
      hi < rest.length → ∃ y, rest[hi - 1]? = some y ∧ x ≤ y ∧ 0 < hi := by
  have hturn : ∀ hi, 0 < hi →
      (∃ r, probeTurn rest x hi = .inl r ∧ ∃ hi, r = .ok hi ∧
        (hi < rest.length → ∃ y, rest[hi - 1]? = some y ∧ x ≤ y ∧ 0 < hi)) ∨
      ∃ next, probeTurn rest x hi = .inr next ∧ 0 < next ∧
        rest.length - next < rest.length - hi := by
    intro hi hpos
    rw [probeTurn]
    split
    case isTrue hlt =>
      have hprev : hi - 1 < rest.length := by omega
      have hget : rest[hi - 1]? = some rest[hi - 1] := List.getElem?_eq_getElem hprev
      rw [if_neg (Nat.ne_of_gt hpos), hget]
      by_cases hbelow : rest[hi - 1] < x
      · have hdouble : hi * 2 % 2 ^ 64 = hi * 2 := Nat.mod_eq_of_lt (by omega)
        refine Or.inr ⟨hi * 2, ?_, by omega, by omega⟩
        simp only [hbelow, if_true, hdouble]
      · refine Or.inl ⟨.ok hi, ?_, hi, rfl, fun _ => ⟨_, hget, Nat.le_of_not_lt hbelow, hpos⟩⟩
        simp only [hbelow, if_false]
    case isFalse hge =>
      exact Or.inl ⟨.ok hi, rfl, hi, rfl, fun hlt => absurd hlt hge⟩
  obtain ⟨r, hr, hi, rfl, hhi⟩ := loop_ends hturn Nat.one_pos
    (Nat.lt_of_le_of_lt (Nat.sub_le rest.length 1) hturns)
  exact ⟨hi, hr, hhi⟩

theorem partitionPoint_window {rest : List ℕ} (hsorted : rest.Pairwise (· ≤ ·)) {x hi : ℕ}
    (hhi : hi < rest.length → ∃ y, rest[hi - 1]? = some y ∧ x ≤ y ∧ 0 < hi) :
    partitionPoint (fun y => decide (y < x)) (rest.take (min hi rest.length)) =
      (rest.takeWhile fun y => decide (y < x)).length := by
  have hdown : ∀ l : List ℕ, l.Pairwise (· ≤ ·) →
      l.Pairwise fun a b => decide (b < x) = true → decide (a < x) = true := by
    intro l hl
    refine hl.imp ?_
    intro a b hab hb
    simp only [decide_eq_true_eq] at hb ⊢
    omega
  rw [partitionPoint_eq (hdown _ (hsorted.sublist (List.take_sublist _ _)))]
  rcases Nat.lt_or_ge hi rest.length with hlt | hge
  · obtain ⟨y, hget, hxy, hpos⟩ := hhi hlt
    rw [Nat.min_eq_left hlt.le]
    -- The last element of the window is not below, so the point is before it.
    have hsplit : rest = rest.take hi ++ rest.drop hi := (List.take_append_drop hi rest).symm
    have hin : y ∈ rest.take hi := by
      rw [List.mem_take_iff_getElem]
      have hprev : hi - 1 < rest.length := by omega
      refine ⟨hi - 1, by omega, ?_⟩
      rw [List.getElem?_eq_getElem hprev, Option.some.injEq] at hget
      exact hget
    conv_rhs => rw [hsplit]
    rw [List.takeWhile_append]
    rw [if_neg]
    intro hall
    have hwhole := List.takeWhile_prefix (fun z => decide (z < x)) (l := rest.take hi)
    have heq := hwhole.eq_of_length hall
    rw [← heq] at hin
    have hlow := List.mem_takeWhile_imp hin
    rw [decide_eq_true_eq] at hlow
    omega
  · rw [Nat.min_eq_right hge, List.take_length]

/-- Galloping counts what is common to a list and another in order. -/
theorem gallop_returns {turns : ℕ} (short : List ℕ) {rest : List ℕ} {count : ℕ}
    (hshort : short.Pairwise (· ≤ ·)) (hrest : rest.Pairwise (· ≤ ·)) (hlen : rest.length < 2 ^ 63)
    (hturns : rest.length < turns) :
    Returns (gallop turns short rest count) fun n => n = count + common short rest := by
  induction short generalizing rest count with
  | nil => exact Returns.pure rfl
  | cons x short ih =>
      obtain ⟨hx, hshort⟩ := List.pairwise_cons.1 hshort
      rw [gallop]
      refine Returns.bind (probe_returns hlen x hturns) fun hi hhi => ?_
      have hpos := partitionPoint_window hrest hhi
      obtain ⟨low, hlow⟩ : ∃ low, low = rest.takeWhile fun y => decide (y < x) := ⟨_, rfl⟩
      obtain ⟨high, hhigh⟩ : ∃ high, high = rest.dropWhile fun y => decide (y < x) := ⟨_, rfl⟩
      have hsplit : rest = low ++ high := by
        rw [hlow, hhigh]
        exact List.takeWhile_append_dropWhile.symm
      have hbelow : ∀ y ∈ low, y < x := by
        intro y hy
        rw [hlow] at hy
        have htrue := @List.mem_takeWhile_imp _ (fun z => decide (z < x)) rest y hy
        exact of_decide_eq_true htrue
      have hpoint : partitionPoint (fun y => decide (y < x)) (rest.take (min hi rest.length)) =
          low.length := by
        rw [hpos, hlow]
      have hhead : ∀ y, high.head? = some y → x ≤ y := by
        intro y hy
        rw [hhigh] at hy
        have hnot := List.head?_dropWhile_not (fun y => decide (y < x)) rest
        rw [hy] at hnot
        simpa using hnot
      have hsorted : high.Pairwise (· ≤ ·) := by
        rw [hhigh]
        exact hrest.sublist (List.dropWhile_sublist _)
      have hfound : rest[low.length]? = some x ↔ x ∈ rest := by
        rw [hsplit, List.getElem?_append_right (Nat.le_refl _), Nat.sub_self, List.mem_append]
        cases hcases : high with
        | nil =>
            constructor
            · intro hnone
              cases hnone
            · rintro (hin | hin)
              · exact absurd (hbelow x hin) (Nat.lt_irrefl x)
              · cases hin
        | cons y high' =>
            have hle := hhead y (by rw [hcases]; rfl)
            rw [hcases, List.pairwise_cons] at hsorted
            rw [List.getElem?_cons_zero, Option.some.injEq]
            constructor
            · rintro rfl
              exact Or.inr List.mem_cons_self
            · rintro (hin | hin)
              · exact absurd (hbelow x hin) (Nat.lt_irrefl x)
              · rcases List.mem_cons.1 hin with rfl | hin
                · rfl
                · exact Nat.le_antisymm (hsorted.1 x hin) hle
      have hdrop : rest.drop low.length = high := by
        rw [hsplit, List.drop_left]
      have hcount : common (x :: short) rest =
          (if rest[low.length]? = some x then 1 else 0) + common short high := by
        have hlater : common short rest = common short high := by
          refine common_congr fun y hy => ?_
          rw [hsplit, List.mem_append]
          have hge : ¬ y ∈ low := fun hin => by
            have hlt := hbelow y hin
            have hle := hx y hy
            omega
          simp [hge]
        rw [← hlater, common, common, List.countP_cons, Nat.add_comm]
        simp only [decide_eq_true_eq, hfound]
      simp only [hpoint, hdrop]
      split
      case isTrue hempty =>
        refine Returns.pure ?_
        rw [hcount, hempty]
        have hnone : common short [] = 0 := by simp [common]
        rw [hnone]
        split <;> rfl
      case isFalse hleft =>
        have hshorter : high.length ≤ rest.length := by
          rw [hsplit, List.length_append]
          exact Nat.le_add_left _ _
        refine (ih hshort hsorted (by omega) (by omega)).weaken ?_
        rintro n rfl
        rw [hcount]
        split <;> omega

theorem gallopCount_returns {short long : List ℕ} {turns : ℕ} (hshort : short.Pairwise (· ≤ ·))
    (hlong : long.Pairwise (· ≤ ·)) (hlen : long.length < 2 ^ 63) (hturns : long.length < turns) :
    Returns (gallopCount turns short long) fun n => n = common short long := by
  refine (gallop_returns short hshort hlong hlen hturns).weaken ?_
  rintro n rfl
  exact Nat.zero_add _

/-- Either way of intersecting counts what two ascending lists have in common. -/
theorem intersectCount_returns {a b : List ℕ} {turns : ℕ} (ha : a.Pairwise (· < ·))
    (hb : b.Pairwise (· < ·)) (hlen : a.length < 2 ^ 63 ∧ b.length < 2 ^ 63)
    (hturns : a.length < turns ∧ b.length < turns) :
    Returns (intersectCount turns a b) fun n => n = common a b := by
  have hordered : ∀ {short long : List ℕ}, short.Pairwise (· < ·) → long.Pairwise (· < ·) →
      long.length < 2 ^ 63 → long.length < turns →
        Returns (intersectOrdered turns short long) fun n => n = common short long := by
    intro short long hshort hlong hlen hturns
    rw [intersectOrdered]
    split
    case isTrue hempty =>
      rw [hempty]
      exact Returns.pure rfl
    case isFalse =>
      split
      · exact gallopCount_returns (hshort.imp Nat.le_of_lt) (hlong.imp Nat.le_of_lt) hlen hturns
      · exact Returns.pure (mergeCount_eq hshort hlong)
  rw [intersectCount]
  split
  · exact hordered ha hb hlen.2 hturns.2
  · rw [common_comm (ha.imp Nat.ne_of_lt) (hb.imp Nat.ne_of_lt)]
    exact hordered hb ha hlen.1 hturns.1

/-! ### The edges that are followed -/

/-- The edges of a network, either way, between different nodes. -/
def Linked (edges : List Edge) (u v : ℕ) : Prop := u ≠ v ∧ ((u, v) ∈ edges ∨ (v, u) ∈ edges)

instance (edges : List Edge) : DecidableRel (Linked edges) := fun u v =>
  inferInstanceAs (Decidable (u ≠ v ∧ ((u, v) ∈ edges ∨ (v, u) ∈ edges)))

theorem Linked.symm {edges : List Edge} {u v : ℕ} (h : Linked edges u v) : Linked edges v u :=
  ⟨h.1.symm, h.2.symm⟩

variable {g : Csr}

theorem mem_undirected {u v : ℕ} :
    (u, v) ∈ undirected g ↔ u < v ∧ (g.Adj u v ∨ g.Adj v u) := by
  rw [undirected, Query.mem_edges, List.mem_filterMap]
  constructor
  · rintro ⟨⟨a, b⟩, he, hsome⟩
    have hadj : g.Adj a b := Csr.mem_edges.1 he
    split at hsome
    case isTrue hne =>
      simp only [Option.some.injEq, Prod.mk.injEq] at hsome hne
      obtain ⟨rfl, rfl⟩ := hsome
      rcases Nat.lt_or_gt_of_ne hne with hlt | hlt
      · rw [Nat.min_eq_left hlt.le, Nat.max_eq_right hlt.le]
        exact ⟨hlt, Or.inl hadj⟩
      · rw [Nat.min_eq_right hlt.le, Nat.max_eq_left hlt.le]
        exact ⟨hlt, Or.inr hadj⟩
    case isFalse => cases hsome
  · rintro ⟨hlt, hadj | hadj⟩
    · refine ⟨(u, v), Csr.mem_edges.2 hadj, ?_⟩
      rw [if_pos hlt.ne, Nat.min_eq_left hlt.le, Nat.max_eq_right hlt.le]
    · refine ⟨(v, u), Csr.mem_edges.2 hadj, ?_⟩
      rw [if_pos hlt.ne', Nat.min_eq_right hlt.le, Nat.max_eq_left hlt.le]

theorem rank_injective (deg : List ℕ) : Function.Injective (rank deg) := by
  intro u v h
  have hpair := toLex_inj.1 h
  exact congrArg Prod.snd hpair

theorem mem_forward {u v : ℕ} (hu : u < g.nodeCount) : v ∈ (forward g).row u ↔
    (u ≠ v ∧ (g.Adj u v ∨ g.Adj v u)) ∧ rank (degrees g.nodeCount (undirected g)) u <
      rank (degrees g.nodeCount (undirected g)) v := by
  obtain ⟨deg, hdeg⟩ : ∃ deg, deg = degrees g.nodeCount (undirected g) := ⟨_, rfl⟩
  simp only [forward, ← hdeg]
  rw [mem_row_build hu, List.mem_map]
  constructor
  · rintro ⟨⟨a, b⟩, he, hedge⟩
    obtain ⟨hlt, hadj⟩ := mem_undirected.1 he
    split at hedge
    case isTrue hup =>
      simp only [Prod.mk.injEq] at hedge hup
      obtain ⟨rfl, rfl⟩ := hedge
      exact ⟨⟨hlt.ne, hadj⟩, hup⟩
    case isFalse hdown =>
      simp only [Prod.mk.injEq] at hedge hdown
      obtain ⟨rfl, rfl⟩ := hedge
      refine ⟨⟨hlt.ne', hadj.symm⟩, ?_⟩
      exact lt_of_le_of_ne (not_lt.1 hdown) ((rank_injective deg).ne hlt.ne')
  · rintro ⟨⟨hne, hadj⟩, hup⟩
    rcases Nat.lt_or_gt_of_ne hne with hlt | hlt
    · exact ⟨(u, v), mem_undirected.2 ⟨hlt, hadj⟩, if_pos hup⟩
    · exact ⟨(v, u), mem_undirected.2 ⟨hlt, hadj.symm⟩, if_neg hup.asymm⟩

theorem row_ascending {n : ℕ} (es : List Edge) {v : ℕ} (hv : v < n) :
    ((Csr.build n es).row v).Pairwise (· < ·) := by
  rw [row_build es hv, List.pairwise_map]
  have hstrict := edges_strict es
  refine List.Pairwise.imp_of_mem ?_ ((hstrict.filter _).filter _)
  rintro ⟨a, b⟩ ⟨c, d⟩ ha hc hlt
  simp only [List.mem_filter, decide_eq_true_eq, Bool.not_eq_true',
    decide_eq_false_iff_not] at ha hc
  simp only at hlt ⊢
  omega

/-! ### The count -/

theorem word_add (checks : Bool) (total more : ℕ) :
    ((word checks total : Checked Unit ℕ) >>= fun count => word checks (count + more)) =
      word checks (total + more) := by
  by_cases hfits : total < 2 ^ 64
  · rw [word_of_lt hfits]
    rfl
  · have hsum : ¬ total + more < 2 ^ 64 := by omega
    cases checks with
    | true =>
        simp only [word, if_neg hfits, if_neg hsum, if_true]
        rfl
    | false =>
        have hmod : (total % 2 ^ 64 + more) % 2 ^ 64 = (total + more) % 2 ^ 64 :=
          Nat.mod_add_mod total (2 ^ 64) more
        simp only [word, if_neg hfits, if_neg hsum, Bool.false_eq_true, if_false]
        change (if total % 2 ^ 64 + more < 2 ^ 64 then _ else _) = _
        split
        case isTrue hlt =>
          rw [← hmod, Nat.mod_eq_of_lt hlt]
        case isFalse => rw [hmod]

theorem countEdge_run {checks : Bool} {turns : ℕ} {fwd : Csr} {e : Edge} {more : ℕ}
    (h : Returns (intersectCount turns (fwd.row e.1) (fwd.row e.2)) fun n => n = more) (count : ℕ) :
    countEdge checks turns fwd count e = ExceptT.mk (some (word checks (count + more))) := by
  obtain ⟨n, hn, rfl⟩ := h
  rw [countEdge]
  apply ExceptT.ext
  rw [ExceptT.run_bind, hn]
  rfl

/-- The edges are counted one after another, as far as a word goes. -/
theorem foldlM_countEdge {checks : Bool} {turns : ℕ} {fwd : Csr} {f : Edge → ℕ} (l : List Edge)
    (h : ∀ e ∈ l, Returns (intersectCount turns (fwd.row e.1) (fwd.row e.2)) fun n => n = f e)
    (total : ℕ) : ((ExceptT.mk (some (word checks total)) : Turns ℕ) >>= fun count =>
      l.foldlM (countEdge checks turns fwd) count).run =
        some (word checks (total + (l.map f).sum)) := by
  induction l generalizing total with
  | nil =>
      simp only [List.foldlM_nil, bind_pure]
      rfl
  | cons e l ih =>
      have hstep : ((ExceptT.mk (some (word checks total)) : Turns ℕ) >>= fun count =>
          countEdge checks turns fwd count e) =
            ExceptT.mk (some (word checks (total + f e))) := by
        rw [← word_add]
        simp only [countEdge_run (h e List.mem_cons_self)]
        apply ExceptT.ext
        rw [ExceptT.run_bind]
        cases (word checks total : Checked Unit ℕ) <;> rfl
      simp only [List.foldlM_cons]
      rw [← bind_assoc, hstep, ih (fun e' he' => h e' (List.mem_cons_of_mem e he')),
        List.map_cons, List.sum_cons, Nat.add_assoc]

/-- The sum over the edges of rows that hold a node once. -/
theorem sum_edges (hrows : ∀ u < g.nodeCount, (g.row u).Nodup) (f : Edge → ℕ) :
    (g.edges.map f).sum =
      ∑ u ∈ Finset.range g.nodeCount, ∑ v ∈ (g.row u).toFinset, f (u, v) := by
  have hinner : ∀ u ∈ Finset.range g.nodeCount, ∑ v ∈ (g.row u).toFinset, f (u, v) =
      ((g.row u).map fun v => f (u, v)).sum := by
    intro u hu
    exact List.sum_toFinset _ (hrows u (Finset.mem_range.1 hu))
  rw [Finset.sum_congr rfl hinner, Csr.edges]
  generalize g.nodeCount = n
  induction n with
  | zero => rfl
  | succ n ih =>
      rw [List.range_succ, List.flatMap_append, List.map_append, List.sum_append, ih,
        Finset.sum_range_succ, List.flatMap_singleton, List.map_map]
      rfl

theorem nodeCount_forward : (forward g).nodeCount = g.nodeCount := nodeCount_build _ _

theorem forward_ascending {u : ℕ} (hu : u < g.nodeCount) :
    ((forward g).row u).Pairwise (· < ·) := row_ascending _ hu

theorem length_ascending {l : List ℕ} {n : ℕ} (h : l.Pairwise (· < ·)) (hlt : ∀ v ∈ l, v < n) :
    l.length ≤ n := by
  have hsub : l.toFinset ⊆ Finset.range n := by
    intro v hv
    rw [List.mem_toFinset] at hv
    exact Finset.mem_range.2 (hlt v hv)
  have hcard := Finset.card_le_card hsub
  rw [List.toFinset_card_of_nodup (h.imp Nat.ne_of_lt), Finset.card_range] at hcard
  exact hcard

/-! ### The degrees -/

/-- A list in memory that is ascending. -/
structure Ascending extends Slice ℕ 4 where
  ascending : items.Pairwise (· < ·)

/-- How much two ascending lists have in common. -/
def Ascending.shared (a b : Ascending) : ℕ := (a.items.toFinset ∩ b.items.toFinset).card

end Triangles

namespace Network

open Triangles

variable (x : Network)

/-- How many three different nodes there are that edges join pairwise, in whatever directions. -/
def triangles : ℕ :=
  (((Finset.range x.nodes).powersetCard 3).filter (AllLinked (Linked x.edges))).card

theorem triangleCount_run (checks : Bool) {turns : ℕ} (hturns : x.nodes < turns) :
    (triangleCount checks turns x.csr).run = some (word checks x.triangles) := by
  obtain ⟨deg, hdeg⟩ : ∃ deg, deg = degrees x.csr.nodeCount (undirected x.csr) := ⟨_, rfl⟩
  have hrow : ∀ u < x.nodes, ∀ v, v ∈ (forward x.csr).row u ↔
      v ∈ Finset.range x.nodes ∧ Linked x.edges u v ∧ rank deg u < rank deg v := by
    intro u hu v
    rw [mem_forward (by rwa [nodeCount_csr]), ← hdeg, x.csr_adj, Finset.mem_range, Linked]
    constructor
    · rintro ⟨hlinked, hup⟩
      refine ⟨?_, hlinked, hup⟩
      rcases hlinked.2 with he | he
      · exact (x.edges_lt _ he).2
      · exact (x.edges_lt _ he).1
    · rintro ⟨-, hlinked, hup⟩
      exact ⟨hlinked, hup⟩
  have hascending : ∀ u < x.nodes, ((forward x.csr).row u).Pairwise (· < ·) := fun u hu =>
    forward_ascending (by rwa [nodeCount_csr])
  have hshort : ∀ u < x.nodes, ((forward x.csr).row u).length ≤ x.nodes := fun u hu =>
    length_ascending (hascending u hu) fun v hv => Finset.mem_range.1 ((hrow u hu v).1 hv).1
  have hnodes : (forward x.csr).nodeCount = x.nodes := nodeCount_forward.trans x.nodeCount_csr
  have hedge : ∀ e ∈ (forward x.csr).edges,
      Returns (intersectCount turns ((forward x.csr).row e.1) ((forward x.csr).row e.2)) fun n =>
        n = (((forward x.csr).row e.1).toFinset ∩ ((forward x.csr).row e.2).toFinset).card := by
    intro e he
    obtain ⟨hu, hv⟩ := Csr.mem_edges.1 he
    rw [hnodes] at hu
    have hv' : e.2 < x.nodes := Finset.mem_range.1 ((hrow e.1 hu e.2).1 hv).1
    rw [← common_eq_card ((hascending e.1 hu).imp Nat.ne_of_lt)]
    have hlt := x.nodes_lt
    have hfirst := hshort e.1 hu
    have hsecond := hshort e.2 hv'
    exact intersectCount_returns (hascending e.1 hu) (hascending e.2 hv')
      ⟨by omega, by omega⟩ ⟨by omega, by omega⟩
  have hrun := @foldlM_countEdge checks turns (forward x.csr) _ (forward x.csr).edges hedge 0
  rw [Nat.zero_add, sum_edges fun u hu => ?_, hnodes] at hrun
  · have hahead : ∀ u ∈ Finset.range x.nodes, ∀ v, v ∈ ((forward x.csr).row u).toFinset ↔
        v ∈ Finset.range x.nodes ∧ Linked x.edges u v ∧ rank deg u < rank deg v := by
      intro u hu v
      rw [List.mem_toFinset]
      exact hrow u (Finset.mem_range.1 hu) v
    rw [triangles, ← sum_triples (rank_injective deg) (fun u v huv => huv.symm) hahead]
    exact hrun
  · rw [hnodes] at hu
    exact (hascending u hu).imp Nat.ne_of_lt

/-- A triangle is counted once, and as far as a word goes; both ways of intersecting ascending
lists count what they have in common. -/
theorem counts_triangles (checks : Bool) (extra : ℕ) :
    (∀ x : Network, (triangleCount checks (x.nodes + 1 + extra) x.csr).run =
      some (word checks x.triangles)) ∧
    ∀ a b : Ascending, mergeCount a.items b.items = a.shared b ∧
      (gallopCount (b.items.length + 1 + extra) a.items b.items).run = some (.ok (a.shared b)) := by
  refine ⟨fun x => x.triangleCount_run checks (by omega), fun a b => ?_⟩
  have hshared : common a.items b.items = a.shared b :=
    common_eq_card (a.ascending.imp Nat.ne_of_lt)
  have hlen : b.items.length < 2 ^ 63 := by
    have hfits := b.fits
    omega
  refine ⟨(mergeCount_eq a.ascending b.ascending).trans hshared, ?_⟩
  obtain ⟨n, hn, rfl⟩ := gallopCount_returns (a.ascending.imp Nat.le_of_lt)
    (b.ascending.imp Nat.le_of_lt) hlen (show b.items.length < b.items.length + 1 + extra by omega)
  rw [hn, hshared]

/-- Every node has an edge to every other. -/
def complete (n : ℕ) (hn : n < 2 ^ 32) : Network where
  nodes := n
  edges := (List.range n).flatMap fun u => (List.range n).map fun v => (u, v)
  nodes_lt := hn
  edges_lt := by
    intro e he
    simp only [List.mem_flatMap, List.mem_map, List.mem_range] at he
    obtain ⟨u, hu, v, hv, rfl⟩ := he
    exact ⟨hu, hv⟩

theorem triangles_complete (n : ℕ) (hn : n < 2 ^ 32) : (complete n hn).triangles = n.choose 3 := by
  have hall : ((Finset.range n).powersetCard 3).filter (AllLinked (Linked (complete n hn).edges)) =
      (Finset.range n).powersetCard 3 := by
    apply Finset.filter_true_of_mem
    intro s hs u hu v hv hne
    have hsub := (Finset.mem_powersetCard.1 hs).1
    refine ⟨hne, Or.inl ?_⟩
    simp only [complete, List.mem_flatMap, List.mem_map, List.mem_range]
    exact ⟨u, Finset.mem_range.1 (hsub hu), v, Finset.mem_range.1 (hsub hv), rfl⟩
  rw [triangles]
  change (((Finset.range n).powersetCard 3).filter _).card = _
  rw [hall, Finset.card_powersetCard, Finset.card_range]

/-- Lists that hold an element twice are not counted alike, and more triangles than a word can
hold are not counted. -/
theorem not_every_counted :
    (mergeCount [1, 1] [1] = 1 ∧ (gallopCount 2 [1, 1] [1]).run = some (.ok 2)) ∧
    ∀ checks, (triangleCount checks (2 ^ 23 + 1) (complete (2 ^ 23) (by decide)).csr).run ≠
      some (.ok (complete (2 ^ 23) (by decide)).triangles) := by
  refine ⟨⟨?_, rfl⟩, fun checks => ?_⟩
  · simp [mergeCount, compare, compareOfLessAndEq]
  · have hnodes : (complete (2 ^ 23) (by decide)).nodes < 2 ^ 23 + 1 := Nat.lt_succ_self _
    have hmany : ¬ (2 ^ 23).choose 3 < 2 ^ 64 := by
      rw [Nat.choose_eq_descFactorial_div_factorial]
      simp only [Nat.descFactorial, Nat.factorial]
      decide
    rw [triangleCount_run _ checks hnodes, triangles_complete]
    generalize (2 ^ 23).choose 3 = count at hmany
    rw [word, if_neg hmany]
    intro heq
    have hsame := Option.some.inj heq
    cases checks with
    | true => exact nomatch hsame
    | false =>
        have hmod : count % 2 ^ 64 = count := Except.ok.inj hsame
        have hlt := Nat.mod_lt count (show 0 < 2 ^ 64 by decide)
        rw [hmod] at hlt
        exact hmany hlt

end Network

end Zu.Query
