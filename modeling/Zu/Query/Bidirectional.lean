import Zu.Lib.Loop
import Zu.Query.RecursiveLevels

/-!
# Bidirectional search

A shortest path between two nodes, searched from both. A side is expanded by a level at a
time, and a node that both sides reached gives a path through it; the first one found need
not be a shortest, but the levels of the two sides say when one has been found.
-/

namespace Zu.Query

open Lib Checked

namespace Bidirectional

/-- A side of the search: how far each node is from its end, the nodes that were reached
last, and the level they are of. -/
structure Side where
  dist : List ℕ
  front : List ℕ
  level : ℕ

/-- What `expand` writes: `dist_this`, `next` and `best`. -/
structure Expansion where
  dist : List ℕ
  next : List ℕ
  best : ℕ

/-- The best meeting, where the other side is so far from the node. -/
def meet (depth best other : ℕ) : Checked Unit ℕ :=
  if other = unreached then .ok best
  else do
    let through ← add32 depth other
    .ok (min best through)

/-- What `expand` does at a neighbor. -/
def visit (distOther : List ℕ) (depth : ℕ) (e : Expansion) (w : ℕ) : Checked Unit Expansion := do
  let other ← index distOther w
  let best ← meet depth e.best other
  let this ← index e.dist w
  .ok (if this = unreached then ⟨e.dist.set w depth, e.next ++ [w], best⟩
    else ⟨e.dist, e.next, best⟩)

def expand (graph : Csr) (frontier distThis distOther : List ℕ) (depth best : ℕ) :
    Checked Unit Expansion :=
  (frontier.flatMap graph.row).foldlM (visit distOther depth) ⟨distThis, [], best⟩

/-- A side is expanded by a level. -/
def Side.advance (graph : Csr) (this other : Side) (best : ℕ) : Checked Unit (Side × ℕ) := do
  let depth ← add32 this.level 1
  let e ← expand graph this.front this.dist other.dist depth best
  .ok (⟨e.dist, e.next, depth⟩, e.best)

/-- Both sides, and the best meeting so far. -/
structure Sides where
  forward : Side
  backward : Side
  best : ℕ

/-- Either side is expanded by a level. -/
def Sides.advance (csr rev : Csr) (st : Sides) (forward : Bool) : Checked Unit Sides :=
  if forward then do
    let next ← st.forward.advance csr st.backward st.best
    .ok ⟨next.1, st.backward, next.2⟩
  else do
    let next ← st.backward.advance rev st.forward st.best
    .ok ⟨st.forward, next.1, next.2⟩

/-- The condition of the loop. -/
def Sides.searching (st : Sides) : Checked Unit Bool :=
  if st.forward.front = [] ∨ st.backward.front = [] then .ok false
  else do
    let levels ← add32 st.forward.level st.backward.level
    .ok (decide (levels < st.best))

/-- A turn of the loop, where `pick` says which side is expanded. -/
def turn (pick : Sides → Bool) (csr rev : Csr) (st : Sides) :
    Checked Unit (Option ℕ) ⊕ Sides :=
  match st.searching with
  | .error stop => .inl (.error stop)
  | .ok false => .inl (.ok (if st.best = unreached then none else some st.best))
  | .ok true =>
      match st.advance csr rev (pick st) with
      | .error stop => .inl (.error stop)
      | .ok next => .inr next

/-- A side that has reached its end. -/
def Side.start (n s : ℕ) : Side := ⟨(List.replicate n unreached).set s 0, [s], 0⟩

/-- The search, where `pick` says which side is expanded. -/
def searchWith (pick : Sides → Bool) (csr rev : Csr) (a b turns : ℕ) :
    Option (Checked Unit (Option ℕ)) :=
  if a = b then some (.ok (some 0))
  else if a < csr.nodeCount ∧ b < csr.nodeCount then
    loop (turn pick csr rev) turns
      ⟨Side.start csr.nodeCount a, Side.start csr.nodeCount b, unreached⟩
  else some (.error .panicked)

def smallerFrontier (st : Sides) : Bool := st.forward.front.length ≤ st.backward.front.length

def bidirectionalShortestPath (csr rev : Csr) (a b turns : ℕ) :
    Option (Checked Unit (Option ℕ)) :=
  searchWith smallerFrontier csr rev a b turns

/-! ### An expansion -/

section

variable {dist distOther : List ℕ} {depth best : ℕ}

/-- What an expansion has made of the neighbors it visited. -/
structure Expanded (dist distOther : List ℕ) (depth best : ℕ) (ws : List ℕ) (e : Expansion) :
    Prop where
  length : e.dist.length = dist.length
  given : ∀ w < dist.length, e.dist[w]? =
    if w ∈ ws ∧ dist[w]? = some unreached then some depth else dist[w]?
  next : ∀ w, w ∈ e.next ↔ w ∈ ws ∧ dist[w]? = some unreached
  best_le : e.best ≤ best
  best_meet : ∀ w ∈ ws, ∀ o, distOther[w]? = some o → o ≠ unreached → e.best ≤ depth + o
  best_from : e.best = best ∨
    ∃ w ∈ ws, ∃ o, distOther[w]? = some o ∧ o ≠ unreached ∧ e.best = depth + o

theorem meet_ok {other : ℕ} (hroom : other ≠ unreached → depth + other < 2 ^ 32) :
    meet depth best other =
      .ok (if other = unreached then best else min best (depth + other)) := by
  rw [meet]
  split
  · rfl
  case isFalse hne =>
    rw [add32, if_pos (hroom hne)]
    rfl

theorem Expanded.visit (hdepth : depth ≠ unreached) {ws : List ℕ} {e : Expansion}
    (h : Expanded dist distOther depth best ws e) {w : ℕ} (hw : w < dist.length)
    (hw' : w < distOther.length)
    (hroom : ∀ o, distOther[w]? = some o → o ≠ unreached → depth + o < 2 ^ 32) :
    ∃ e', Bidirectional.visit distOther depth e w = .ok e' ∧
      Expanded dist distOther depth best (ws ++ [w]) e' := by
  obtain ⟨other, hother⟩ : ∃ other, distOther[w]? = some other :=
    ⟨distOther[w], List.getElem?_eq_getElem hw'⟩
  have hlen : w < e.dist.length := by
    rw [h.length]
    exact hw
  obtain ⟨this, hthis⟩ : ∃ this, e.dist[w]? = some this :=
    ⟨e.dist[w], List.getElem?_eq_getElem hlen⟩
  have hbest : ∀ e' : Expansion,
      e'.best = (if other = unreached then e.best else min e.best (depth + other)) →
        e'.best ≤ best ∧
        (∀ u ∈ ws ++ [w], ∀ o, distOther[u]? = some o → o ≠ unreached → e'.best ≤ depth + o) ∧
        (e'.best = best ∨
          ∃ u ∈ ws ++ [w], ∃ o, distOther[u]? = some o ∧ o ≠ unreached ∧ e'.best = depth + o) := by
    intro e' he'
    have hle : e'.best ≤ e.best := by
      rw [he']
      split
      · exact Nat.le_refl _
      · exact Nat.min_le_left _ _
    have hfrom : e'.best = e.best ∨ other ≠ unreached ∧ e'.best = depth + other := by
      rw [he']
      split
      · exact Or.inl rfl
      case isFalse hne =>
        rcases Nat.le_total e.best (depth + other) with hless | hless
        · exact Or.inl (Nat.min_eq_left hless)
        · exact Or.inr ⟨hne, Nat.min_eq_right hless⟩
    refine ⟨hle.trans h.best_le, fun u hu o ho hne => ?_, ?_⟩
    · rcases List.mem_append.1 hu with hu | hu
      · exact hle.trans (h.best_meet u hu o ho hne)
      · rw [List.mem_singleton.1 hu, hother, Option.some.injEq] at ho
        rw [he', ho, if_neg hne]
        exact Nat.min_le_right _ _
    · rcases hfrom with hsame | ⟨hne, hmeet⟩
      · rw [hsame]
        rcases h.best_from with hbest | ⟨u, hu, o, ho⟩
        · exact Or.inl hbest
        · exact Or.inr ⟨u, List.mem_append_left _ hu, o, ho⟩
      · exact Or.inr ⟨w, List.mem_append_right _ List.mem_cons_self, other, hother, hne, hmeet⟩
  have hold := h.given w hw
  rw [hthis] at hold
  have hvisit : Bidirectional.visit distOther depth e w =
      .ok (if this = unreached then ⟨e.dist.set w depth, e.next ++ [w],
          if other = unreached then e.best else min e.best (depth + other)⟩
        else ⟨e.dist, e.next,
          if other = unreached then e.best else min e.best (depth + other)⟩) := by
    rw [Bidirectional.visit, index_of_getElem? hother, ok_bind,
      meet_ok fun hne => hroom other hother hne, ok_bind, index_of_getElem? hthis, ok_bind]
  rw [hvisit]
  refine ⟨_, rfl, ?_⟩
  split
  case isTrue hnew =>
    -- The node was not reached before, by this expansion neither.
    have hfresh : w ∉ ws ∧ dist[w]? = some unreached := by
      rw [hnew] at hold
      split at hold
      · exact absurd (Option.some.inj hold).symm hdepth
      case isFalse hnot =>
        exact ⟨fun hin => hnot ⟨hin, hold.symm⟩, hold.symm⟩
    obtain ⟨hle, hmeet, hfrom⟩ := hbest ⟨e.dist.set w depth, e.next ++ [w], _⟩ rfl
    refine ⟨?_, fun u hu => ?_, fun u => ?_, hle, hmeet, hfrom⟩
    · rw [List.length_set]
      exact h.length
    · rcases eq_or_ne w u with rfl | hne
      · rw [List.getElem?_set_self hlen,
          if_pos ⟨List.mem_append_right _ List.mem_cons_self, hfresh.2⟩]
      · rw [List.getElem?_set_ne hne, h.given u hu]
        simp only [List.mem_append, List.mem_singleton, hne.symm, or_false]
    · rw [List.mem_append, List.mem_append, h.next, List.mem_singleton]
      constructor
      · rintro (⟨hin, hun⟩ | rfl)
        · exact ⟨Or.inl hin, hun⟩
        · exact ⟨Or.inr rfl, hfresh.2⟩
      · rintro ⟨hin | hin, hun⟩
        · exact Or.inl ⟨hin, hun⟩
        · exact Or.inr hin
  case isFalse hseen =>
    have hbefore : dist[w]? = some unreached → w ∈ ws := by
      intro hun
      by_contra hout
      rw [if_neg fun hin => hout hin.1, hun] at hold
      exact hseen (Option.some.inj hold)
    obtain ⟨hle, hmeet, hfrom⟩ := hbest ⟨e.dist, e.next, _⟩ rfl
    have hmem : ∀ u, u ∈ ws ++ [w] ∧ dist[u]? = some unreached ↔
        u ∈ ws ∧ dist[u]? = some unreached := by
      intro u
      rw [List.mem_append, List.mem_singleton]
      constructor
      · rintro ⟨hin | rfl, hun⟩
        · exact ⟨hin, hun⟩
        · exact ⟨hbefore hun, hun⟩
      · rintro ⟨hin, hun⟩
        exact ⟨Or.inl hin, hun⟩
    refine ⟨h.length, fun u hu => ?_, fun u => ?_, hle, hmeet, hfrom⟩
    · rw [h.given u hu]
      simp only [hmem]
    · rw [hmem]
      exact h.next u

theorem expand_ok (hdepth : depth ≠ unreached) {graph : Csr} {frontier : List ℕ}
    (hrows : ∀ w ∈ frontier.flatMap graph.row, w < dist.length ∧ w < distOther.length)
    (hroom : ∀ (w o : ℕ), distOther[w]? = some o → o ≠ unreached → depth + o < 2 ^ 32) :
    ∃ e, expand graph frontier dist distOther depth best = .ok e ∧
      Expanded dist distOther depth best (frontier.flatMap graph.row) e := by
  have hrun : ∀ (rest done : List ℕ) (e : Expansion), Expanded dist distOther depth best done e →
      (∀ w ∈ rest, w < dist.length ∧ w < distOther.length) →
        ∃ e', rest.foldlM (Bidirectional.visit distOther depth) e = .ok e' ∧
          Expanded dist distOther depth best (done ++ rest) e' := by
    intro rest
    induction rest with
    | nil =>
        intro done e h _
        refine ⟨e, rfl, ?_⟩
        rw [List.append_nil]
        exact h
    | cons w rest ih =>
        intro done e h hrest
        obtain ⟨hw, hw'⟩ := hrest w List.mem_cons_self
        obtain ⟨e', hvisit, h'⟩ := h.visit hdepth hw hw' (hroom w)
        obtain ⟨e'', hrun, h''⟩ := ih (done ++ [w]) e' h' fun u hu =>
          hrest u (List.mem_cons_of_mem w hu)
        refine ⟨e'', ?_, ?_⟩
        · rw [List.foldlM_cons, hvisit]
          exact hrun
        · rw [← List.append_cons] at h''
          exact h''
  have hstart : Expanded dist distOther depth best [] ⟨dist, [], best⟩ := by
    refine ⟨rfl, fun w _ => ?_, fun w => ?_, Nat.le_refl _, ?_, Or.inl rfl⟩
    · simp
    · simp
    · exact fun w hw => absurd hw List.not_mem_nil
  exact hrun _ [] _ hstart hrows

end

/-! ### A side -/

section

variable {adj : ℕ → ℕ → Prop} {s n : ℕ}

/-- A side that was expanded up to its level. -/
structure Side.Reached (adj : ℕ → ℕ → Prop) (s n : ℕ) (x : Side) : Prop where
  length : x.dist.length = n
  dist : ∀ w < n, ∀ e ≤ x.level, Level adj (· = s) e w → x.dist[w]? = some e
  rest : ∀ w < n, ¬ Within adj (· = s) x.level w → x.dist[w]? = some unreached
  front : ∀ w, w ∈ x.front ↔ Level adj (· = s) x.level w

theorem Side.start_reached (hs : s < n) : (Side.start n s).Reached adj s n := by
  refine ⟨?_, fun w hw e he hlevel => ?_, fun w hw hnone => ?_, fun w => ?_⟩
  · rw [Side.start, List.length_set, List.length_replicate]
  · obtain rfl : e = 0 := Nat.le_zero.1 he
    rw [level_zero.1 hlevel, Side.start, List.getElem?_set_self]
    rw [List.length_replicate]
    exact hs
  · have hne : s ≠ w := by
      rintro rfl
      exact hnone ⟨0, Nat.le_refl 0, rfl⟩
    rw [Side.start, List.getElem?_set_ne hne, List.getElem?_replicate, if_pos hw]
  · rw [Side.start, level_zero, List.mem_singleton]

theorem Side.Reached.of_dist {x : Side} (h : x.Reached adj s n) {w o : ℕ}
    (ho : x.dist[w]? = some o) (hne : o ≠ unreached) : o ≤ x.level ∧ Level adj (· = s) o w := by
  have hw : w < n := by
    rw [← h.length]
    exact (List.getElem?_eq_some_iff.1 ho).1
  by_cases hwithin : Within adj (· = s) x.level w
  · obtain ⟨e, he, hlevel⟩ := within_iff_level.1 hwithin
    have heq := h.dist w hw e he hlevel
    rw [ho, Option.some.injEq] at heq
    rw [heq]
    exact ⟨he, hlevel⟩
  · have heq := h.rest w hw hwithin
    rw [ho, Option.some.injEq] at heq
    exact absurd heq hne

variable {g : Csr}

theorem mem_rows {x : Side} (hg : g.Sound) (hs : s < g.nodeCount)
    (h : x.Reached g.Adj s g.nodeCount) (w : ℕ) : w ∈ x.front.flatMap g.row ↔
      ∃ v, Level g.Adj (· = s) x.level v ∧ g.Adj v w := by
  rw [List.mem_flatMap]
  constructor
  · rintro ⟨v, hv, hw⟩
    rw [h.front] at hv
    exact ⟨v, hv, level_lt_of_sound hg (by rintro u rfl; exact hs) hv, hw⟩
  · rintro ⟨v, hv, -, hw⟩
    exact ⟨v, (h.front v).2 hv, hw⟩

/-- A side is of the next level when it was expanded, and the best meeting is that of the
nodes it leads to. -/
theorem Side.Reached.advance {adj' : ℕ → ℕ → Prop} {t best : ℕ} {this other : Side} (hg : g.Sound)
    (hs : s < g.nodeCount) (hlt : g.nodeCount < 2 ^ 32) (h : this.Reached g.Adj s g.nodeCount)
    (h' : other.Reached adj' t g.nodeCount)
    (hroom : this.level + 1 + other.level < g.nodeCount) :
    ∃ next, this.advance g other best = .ok next ∧ next.1.Reached g.Adj s g.nodeCount ∧
      next.1.level = this.level + 1 ∧ next.2 ≤ best ∧
      (∀ w e, Level g.Adj (· = s) (this.level + 1) w → e ≤ other.level →
        Level adj' (· = t) e w → next.2 ≤ this.level + 1 + e) ∧
      (next.2 = best ∨ ∃ w e, Hops g.Adj (· = s) (this.level + 1) w ∧ e ≤ other.level ∧
        Hops adj' (· = t) e w ∧ next.2 = this.level + 1 + e) := by
  have hdepth : this.level + 1 ≠ unreached := by
    rw [unreached]
    omega
  have hrows : ∀ w ∈ this.front.flatMap g.row, w < this.dist.length ∧ w < other.dist.length := by
    intro w hw
    obtain ⟨v, -, hv, hrow⟩ := (mem_rows hg hs h w).1 hw
    rw [h.length, h'.length]
    exact ⟨hg v hv w hrow, hg v hv w hrow⟩
  have hmeets : ∀ (w o : ℕ), other.dist[w]? = some o → o ≠ unreached →
      this.level + 1 + o < 2 ^ 32 := by
    intro w o ho hne
    have hle := (h'.of_dist ho hne).1
    omega
  obtain ⟨e, hexpand, he⟩ := @expand_ok this.dist other.dist (this.level + 1) best hdepth g
    this.front hrows hmeets
  have hadvance : this.advance g other best = .ok (⟨e.dist, e.next, this.level + 1⟩, e.best) := by
    rw [Side.advance, add32, if_pos (by omega), ok_bind, hexpand, ok_bind]
  refine ⟨_, hadvance, ⟨?_, ?_, ?_, ?_⟩, rfl, he.best_le, ?_, ?_⟩
  · rw [he.length, h.length]
  · intro w hw d hd hlevel
    have hdist := he.given w (by rwa [h.length])
    rcases Nat.lt_or_ge this.level d with hnew | hold
    · obtain rfl : d = this.level + 1 := Nat.le_antisymm hd hnew
      obtain ⟨⟨v, hv, hvw⟩, hnone⟩ := level_succ.1 hlevel
      rw [hdist, if_pos ⟨(mem_rows hg hs h w).2 ⟨v, hv, hvw⟩, h.rest w hw hnone⟩]
    · have hsome := h.dist w hw d hold hlevel
      have hne : d ≠ unreached := by
        rw [unreached]
        omega
      rw [hdist, if_neg, hsome]
      rintro ⟨-, hun⟩
      rw [hsome, Option.some.injEq] at hun
      exact hne hun
  · intro w hw hnone
    have hdist := he.given w (by rwa [h.length])
    rw [within_succ, not_or] at hnone
    have hrest := h.rest w hw hnone.1
    rw [hdist, if_neg, hrest]
    rintro ⟨hin, -⟩
    exact hnone.2 (level_succ.2 ⟨(mem_rows hg hs h w).1 hin, hnone.1⟩)
  · intro w
    rw [he.next, mem_rows hg hs h, level_succ]
    apply and_congr_right
    rintro ⟨v, hv, hvn, hrow⟩
    constructor
    · intro hun hwithin
      obtain ⟨d, hd, hlevel⟩ := within_iff_level.1 hwithin
      have hsome := h.dist w (hg v hvn w hrow) d hd hlevel
      rw [hun, Option.some.injEq, unreached] at hsome
      omega
    · exact fun hnone => h.rest w (hg v hvn w hrow) hnone
  · intro w d hlevel hd hother
    obtain ⟨⟨v, hv, hvw⟩, -⟩ := level_succ.1 hlevel
    have hw : w < g.nodeCount := hg v hvw.1 w hvw.2
    refine he.best_meet w ((mem_rows hg hs h w).2 ⟨v, hv, hvw⟩) d (h'.dist w hw d hd hother) ?_
    rw [unreached]
    omega
  · rcases he.best_from with hsame | ⟨w, hw, o, ho, hne, hmeet⟩
    · exact Or.inl hsame
    · obtain ⟨v, hv, hvw⟩ := (mem_rows hg hs h w).1 hw
      obtain ⟨hle, hlevel⟩ := h'.of_dist ho hne
      exact Or.inr ⟨w, o, ⟨v, hv.1, hvw⟩, hle, hlevel.1, hmeet⟩

end

/-! ### Both sides -/

section

variable {adj : ℕ → ℕ → Prop} {a b n best : ℕ} {this other : Side}

/-- What holds of both sides at every turn: a best meeting is a path within the levels, and a
shortest path within the levels is met. -/
structure Met (adj : ℕ → ℕ → Prop) (a b n : ℕ) (this other : Side) (best : ℕ) : Prop where
  near : this.Reached adj a n
  far : other.Reached (fun v u => adj u v) b n
  room : this.level + other.level < n
  path : best = unreached ∨ Hops adj (· = a) best b
  shortest : ∀ d, Level adj (· = a) d b → d ≤ this.level + other.level → best ≤ d
  close : best = unreached ∨ best ≤ this.level + other.level

theorem Met.symm (h : Met adj a b n this other best) :
    Met (fun v u => adj u v) b a n other this best := by
  refine ⟨h.far, h.near, ?_, h.path.imp_right Hops.back, fun d hd hle => ?_, ?_⟩
  · rw [Nat.add_comm]
    exact h.room
  · rw [Nat.add_comm] at hle
    exact h.shortest d (level_back.2 hd) hle
  · rw [Nat.add_comm]
    exact h.close

/-- As long as there is no meeting, the sides are apart. -/
theorem Met.apart (h : Met adj a b n this other unreached) (hlt : n < 2 ^ 32) (u : ℕ) :
    ¬ (Within adj (· = a) this.level u ∧ Within (fun v u => adj u v) (· = b) other.level u) := by
  rintro ⟨⟨d, hd, hops⟩, e, he, hback⟩
  obtain ⟨k, hk, hlevel⟩ := (hops.join hback).exists_level
  have hle := h.shortest k hlevel (by omega)
  have hroom := h.room
  rw [unreached] at hle
  omega

theorem Met.advance {g : Csr} (hg : g.Sound) (hlt : g.nodeCount < 2 ^ 32) (ha : a < g.nodeCount)
    (h : Met g.Adj a b g.nodeCount this other unreached)
    (hroom : this.level + other.level + 2 ≤ g.nodeCount) :
    ∃ next, this.advance g other unreached = .ok next ∧
      Met g.Adj a b g.nodeCount next.1 other next.2 ∧ next.1.level = this.level + 1 := by
  obtain ⟨next, hnext, hreached, hlevel, hle, hmeet, hfrom⟩ :=
    @Side.Reached.advance _ g _ _ unreached this other hg ha hlt h.near h.far (by omega)
  refine ⟨next, hnext, ⟨hreached, h.far, ?_, ?_, fun d hd hwithin => ?_, ?_⟩, hlevel⟩
  · rw [hlevel]
    omega
  · rcases hfrom with hsame | ⟨w, e, hops, -, hback, hbest⟩
    · exact Or.inl hsame
    · rw [hbest]
      exact Or.inr (hops.join hback)
  · rw [hlevel] at hwithin
    rcases Nat.lt_or_ge (this.level + other.level) d with hnew | hold
    · -- A shortest path of this length goes through the new level and the other side's last.
      obtain rfl : d = this.level + 1 + other.level := by omega
      obtain ⟨w, hw, hback⟩ := hd.split
      exact hmeet w other.level hw (Nat.le_refl _) hback
    · exact hle.trans (h.shortest d hd hold)
  · rw [hlevel]
    rcases hfrom with hsame | ⟨w, e, -, he, -, hbest⟩
    · exact Or.inl hsame
    · rw [hbest]
      exact Or.inr (Nat.add_le_add_left he _)

/-- Where a frontier is empty, what the sides met is all there is. -/
theorem Met.of_empty (h : Met adj a b n this other best) (hempty : this.front = []) {d : ℕ}
    (hd : Level adj (· = a) d b) : best ≤ d := by
  apply h.shortest d hd
  by_contra hgt
  obtain ⟨u, hu⟩ := exists_level hd this.level (by omega)
  rw [← h.near.front, hempty] at hu
  exact absurd hu List.not_mem_nil

/-- A search that ends with the shortest path among those there are. -/
theorem Met.finds (h : Met adj a b n this other best)
    (hend : best = unreached → ∀ d, ¬ Level adj (· = a) d b) (d : ℕ) :
    (if best = unreached then none else some best) = some d ↔ Level adj (· = a) d b := by
  split
  case isTrue hnone =>
    constructor
    · intro hd
      cases hd
    · intro hd
      exact absurd hd (hend hnone d)
  case isFalse hsome =>
    have hpath := h.path.resolve_left hsome
    have hclose := h.close.resolve_left hsome
    obtain ⟨e, he, hlevel⟩ := hpath.exists_level
    obtain rfl : best = e := Nat.le_antisymm (h.shortest e hlevel (he.trans hclose)) he
    rw [Option.some.injEq]
    constructor
    · rintro rfl
      exact hlevel
    · exact level_unique hlevel

/-- What the loop keeps of both sides. -/
def Sides.Sound (g : Csr) (a b : ℕ) (st : Sides) : Prop :=
  Met g.Adj a b g.nodeCount st.forward st.backward st.best

variable {g rev : Csr}

theorem start_sound (ha : a < g.nodeCount) (hb : b < g.nodeCount)
    (hne : a ≠ b) :
    Sides.Sound g a b ⟨Side.start g.nodeCount a, Side.start g.nodeCount b, unreached⟩ := by
  refine ⟨Side.start_reached ha, Side.start_reached hb, ?_, Or.inl rfl, fun d hd hle => ?_,
    Or.inl rfl⟩
  · simp only [Side.start]
    exact Nat.zero_lt_of_lt ha
  · have hzero : d = 0 := Nat.le_zero.1 hle
    rw [hzero] at hd
    exact absurd (level_zero.1 hd).symm hne

/-- A search that goes on has levels left on both sides. -/
theorem Sides.Sound.levels_left {st : Sides} (hg : g.Sound) (hlt : g.nodeCount < 2 ^ 32)
    (ha : a < g.nodeCount) (hb : b < g.nodeCount) (h : st.Sound g a b)
    (hbest : st.best = unreached) (hf : st.forward.front ≠ []) (hback : st.backward.front ≠ []) :
    st.forward.level + st.backward.level + 2 ≤ g.nodeCount := by
  obtain ⟨w, hw⟩ := List.exists_mem_of_ne_nil _ hf
  obtain ⟨w', hw'⟩ := List.exists_mem_of_ne_nil _ hback
  have hapart : Met g.Adj a b g.nodeCount st.forward st.backward unreached := hbest ▸ h
  have hlevels : ∀ d u, Level g.Adj (· = a) d u → u < g.nodeCount := fun d u hu =>
    level_lt_of_sound hg (by rintro s rfl; exact ha) hu
  have hlevels' : ∀ d u, Level (fun v w => g.Adj w v) (· = b) d u → u < g.nodeCount := by
    intro d u hu
    cases d with
    | zero =>
        rw [level_zero.1 hu]
        exact hb
    | succ d =>
        obtain ⟨⟨v, -, hvu⟩, -⟩ := level_succ.1 hu
        exact hvu.1
  exact levels_apart hlevels hlevels' ((h.near.front w).1 hw) ((h.far.front w').1 hw')
    (hapart.apart hlt)

/-- A turn of the loop ends it with the shortest path, or expands a side. -/
theorem turn_sound (hg : g.Sound) (hlt : g.nodeCount < 2 ^ 32) (hrev : rev.Reverses g)
    (ha : a < g.nodeCount) (hb : b < g.nodeCount) (pick : Sides → Bool) (st : Sides)
    (h : st.Sound g a b) :
    (∃ r, turn pick g rev st = .inl r ∧
      ∃ found, r = .ok found ∧ ∀ d, found = some d ↔ Level g.Adj (· = a) d b) ∨
    ∃ next, turn pick g rev st = .inr next ∧ next.Sound g a b ∧
      g.nodeCount - (next.forward.level + next.backward.level) <
        g.nodeCount - (st.forward.level + st.backward.level) := by
  have hroom : st.forward.level + st.backward.level < g.nodeCount := Met.room h
  have hbound : ∀ d, Level g.Adj (· = a) d b → d < g.nodeCount := fun d hd =>
    level_lt (fun d u hu => level_lt_of_sound hg (by rintro s rfl; exact ha) hu) hd
  have hends : ∀ (hstop : st.searching = .ok false)
      (_ : st.best = unreached → ∀ d, ¬ Level g.Adj (· = a) d b),
      ∃ r, turn pick g rev st = .inl r ∧
        ∃ found, r = .ok found ∧ ∀ d, found = some d ↔ Level g.Adj (· = a) d b := by
    intro hstop hnone
    refine ⟨_, ?_, _, rfl, h.finds hnone⟩
    rw [turn, hstop]
  by_cases hempty : st.forward.front = [] ∨ st.backward.front = []
  · apply Or.inl
    apply hends
    · rw [Sides.searching, if_pos hempty]
    · intro hbest d hd
      have hle : st.best ≤ d := by
        rcases hempty with hempty | hempty
        · exact h.of_empty hempty hd
        · exact h.symm.of_empty hempty (level_back.1 hd)
      have hless := hbound d hd
      rw [hbest, unreached] at hle
      omega
  have hsearching : st.searching =
      .ok (decide (st.forward.level + st.backward.level < st.best)) := by
    rw [Sides.searching, if_neg hempty, add32, if_pos (hroom.trans hlt)]
    rfl
  by_cases hgo : st.forward.level + st.backward.level < st.best
  · apply Or.inr
    rw [decide_eq_true hgo] at hsearching
    rw [not_or] at hempty
    have hbest : st.best = unreached := h.close.resolve_right (Nat.not_le_of_gt hgo)
    have hleft := h.levels_left hg hlt ha hb hbest hempty.1 hempty.2
    have hmet : Met g.Adj a b g.nodeCount st.forward st.backward unreached := hbest ▸ h
    cases hpick : pick st with
    | true =>
        obtain ⟨next, hnext, hkept, hlevel⟩ := hmet.advance hg hlt ha hleft
        refine ⟨⟨next.1, st.backward, next.2⟩, ?_, hkept, ?_⟩
        · rw [turn, hsearching, hpick]
          simp only [Sides.advance, if_true, hbest, hnext, ok_bind]
        · simp only [hlevel]
          omega
    | false =>
        have hback := hmet.symm
        rw [← hrev.adj hg, ← hrev.1] at hback
        obtain ⟨next, hnext, hkept, hlevel⟩ := hback.advance hrev.sound (hrev.1 ▸ hlt)
          (hrev.1 ▸ hb) (by rw [hrev.1]; omega)
        rw [hrev.adj hg, hrev.1] at hkept
        refine ⟨⟨st.forward, next.1, next.2⟩, ?_, hkept.symm, ?_⟩
        · rw [turn, hsearching, hpick]
          simp only [Sides.advance, hbest, hnext, ok_bind, Bool.false_eq_true, if_false]
        · simp only [hlevel]
          omega
  · apply Or.inl
    apply hends
    · rw [hsearching, decide_eq_false hgo]
    · intro hbest
      rw [hbest, unreached] at hgo
      omega

/-- The search ends with the shortest path, whichever side is expanded at each turn. -/
theorem searchWith_right (hg : g.Sound) (hlt : g.nodeCount < 2 ^ 32) (hrev : rev.Reverses g)
    (ha : a < g.nodeCount) (hb : b < g.nodeCount) (pick : Sides → Bool) (extra : ℕ) :
    ∃ found, searchWith pick g rev a b (g.nodeCount + 1 + extra) = some (.ok found) ∧
      ∀ d, found = some d ↔ Level g.Adj (· = a) d b := by
  rw [searchWith]
  by_cases hsame : a = b
  · refine ⟨some 0, if_pos hsame, fun d => ?_⟩
    have hzero : Level g.Adj (· = a) 0 b := level_zero.2 hsame.symm
    rw [Option.some.injEq]
    constructor
    · rintro rfl
      exact hzero
    · exact level_unique hzero
  · rw [if_neg hsame, if_pos ⟨ha, hb⟩]
    have hturn := turn_sound hg hlt hrev ha hb pick
    have hstart := start_sound ha hb hsame
    obtain ⟨r, hr, found, rfl, hfound⟩ := @loop_ends _ _ (turn pick g rev) (Sides.Sound g a b)
      (fun st => g.nodeCount - (st.forward.level + st.backward.level))
      (fun r => ∃ found, r = .ok found ∧ ∀ d, found = some d ↔ Level g.Adj (· = a) d b)
      hturn (g.nodeCount + 1 + extra) _ hstart (by omega)
    exact ⟨found, hr, hfound⟩

end

end Bidirectional

/-- A network, and two nodes of it. -/
structure Pair extends Network where
  a : ℕ
  b : ℕ
  a_lt : a < nodes
  b_lt : b < nodes

namespace Pair

variable (x : Pair)

/-- A path of so many edges from the first node to the other. -/
def Path (d : ℕ) : Prop := Hops (fun v w => (v, w) ∈ x.edges) (· = x.a) d x.b

/-- The length of a shortest path. -/
def Shortest (d : ℕ) : Prop := x.Path d ∧ ∀ e, x.Path e → d ≤ e

/-- A search that ends returns the length of a shortest path, and nothing exactly where there
is no path. -/
def Finds (answer : Option (Checked Unit (Option ℕ))) : Prop :=
  ∃ found, answer = some (.ok found) ∧ (∀ d, found = some d ↔ x.Shortest d) ∧
    (found = none ↔ ∀ d, ¬ x.Path d)

theorem shortest_iff (d : ℕ) :
    x.Shortest d ↔ Level (fun v w => (v, w) ∈ x.edges) (· = x.a) d x.b := by
  rw [Shortest, Level]
  apply and_congr_right
  intro _
  constructor
  · exact fun hmin e he hpath => Nat.not_lt_of_le (hmin e hpath) he
  · exact fun hmin e hpath => Nat.le_of_not_lt fun he => hmin e he hpath

theorem finds_of_level {found : Option ℕ}
    (h : ∀ d, found = some d ↔ Level (fun v w => (v, w) ∈ x.edges) (· = x.a) d x.b) :
    x.Finds (some (.ok found)) := by
  refine ⟨found, rfl, fun d => (h d).trans (x.shortest_iff d).symm, ?_⟩
  constructor
  · intro hnone d hpath
    obtain ⟨e, -, hlevel⟩ := hpath.exists_level
    rw [← h, hnone] at hlevel
    cases hlevel
  · intro hnone
    cases hfound : found with
    | none => rfl
    | some d => exact absurd ((h d).1 hfound).1 (hnone d)

/-- The search finds a shortest path, and so it does whichever side is expanded at each step. -/
theorem finds_shortest (extra : ℕ) :
    x.Finds (Bidirectional.bidirectionalShortestPath x.csr x.csr.reversed x.a x.b
      (x.nodes + 1 + extra)) ∧
    ∀ pick, x.Finds (Bidirectional.searchWith pick x.csr x.csr.reversed x.a x.b
      (x.nodes + 1 + extra)) := by
  have hsearch : ∀ pick, x.Finds (Bidirectional.searchWith pick x.csr x.csr.reversed x.a x.b
      (x.nodes + 1 + extra)) := by
    intro pick
    obtain ⟨found, hfound, hlevel⟩ := Bidirectional.searchWith_right x.csr_sound
      (by rw [Network.nodeCount_csr]; exact x.nodes_lt) x.csr.reversed_reverses
      (by rw [Network.nodeCount_csr]; exact x.a_lt) (by rw [Network.nodeCount_csr]; exact x.b_lt) pick extra
    rw [Network.nodeCount_csr] at hfound
    rw [Network.csr_adj] at hlevel
    rw [hfound]
    exact x.finds_of_level hlevel
  exact ⟨hsearch _, hsearch⟩

end Pair

end Zu.Query
