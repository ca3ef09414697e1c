import Zu.Lib.Hops

/-!
# Walks

Walks over edges that have a name, listed with the last hop first, the way a search that goes
on from where it stands holds them. An edge that is told by its name joins two nodes and no
others, so a walk that repeats no node repeats no edge, and the one way to close such a walk
over an edge it holds is to go back over its only edge.
-/

namespace Zu.Lib

namespace Walks

variable {V E : Type*}

/-- Where a walk from `s` has come to. -/
def ended (s : V) : List (E × V) → V
  | [] => s
  | hop :: _ => hop.2

/-- The hops, last first, are those of a walk from `s`. -/
def IsWalk (step : V → E → V → Prop) (s : V) : List (E × V) → Prop
  | [] => True
  | hop :: p => IsWalk step s p ∧ step (ended s p) hop.1 hop.2

/-- The nodes a walk from `s` has been at, last first. -/
def nodes (s : V) (p : List (E × V)) : List V := p.map Prod.snd ++ [s]

/-- The edges a walk went over, last first. -/
def edges (p : List (E × V)) : List E := p.map Prod.fst

/-- An edge joins two nodes and no others. -/
def Joins (step : V → E → V → Prop) : Prop :=
  ∀ u e v u' v', step u e v → step u' e v' → (u' = u ∧ v' = v) ∨ (u' = v ∧ v' = u)

variable {step : V → E → V → Prop} {s : V}

theorem ended_append (q p : List (E × V)) : ended s (q ++ p) = ended (ended s p) q := by
  cases q with
  | nil => rfl
  | cons hop q => rfl

theorem isWalk_append (q p : List (E × V)) :
    IsWalk step s (q ++ p) ↔ IsWalk step s p ∧ IsWalk step (ended s p) q := by
  induction q with
  | nil => simp [IsWalk]
  | cons hop q ih =>
      rw [List.cons_append, IsWalk, IsWalk, ih, ended_append]
      tauto

@[simp] theorem nodes_nil : nodes s ([] : List (E × V)) = [s] := rfl

@[simp] theorem nodes_cons (hop : E × V) (p : List (E × V)) :
    nodes s (hop :: p) = hop.2 :: nodes s p := rfl

theorem nodes_append (q p : List (E × V)) : nodes s (q ++ p) = q.map Prod.snd ++ nodes s p := by
  rw [nodes, nodes, List.map_append, List.append_assoc]

theorem ended_mem_nodes (p : List (E × V)) : ended s p ∈ nodes s p := by
  cases p with
  | nil => simp [ended]
  | cons hop p => simp [ended]

theorem start_mem_nodes (p : List (E × V)) : s ∈ nodes s p := by
  simp [nodes]

theorem length_edges (p : List (E × V)) : (edges p).length = p.length := by
  simp [edges]

/-- A walk that was at a node came to it by a part of its hops. -/
theorem split_of_mem_nodes {v : V} {p : List (E × V)} (h : v ∈ nodes s p) :
    ∃ q b, p = q ++ b ∧ ended s b = v := by
  induction p with
  | nil =>
      rw [nodes_nil, List.mem_singleton] at h
      exact ⟨[], [], rfl, h.symm⟩
  | cons hop p ih =>
      rw [nodes_cons, List.mem_cons] at h
      obtain rfl | h := h
      · exact ⟨[], hop :: p, rfl, rfl⟩
      · obtain ⟨q, b, rfl, hb⟩ := ih h
        exact ⟨hop :: q, b, rfl, hb⟩

/-- Where a walk leads, one that repeats no node leads in no more hops. -/
theorem exists_acyclic {p : List (E × V)} (h : IsWalk step s p) :
    ∃ q, IsWalk step s q ∧ ended s q = ended s p ∧ q.length ≤ p.length ∧ (nodes s q).Nodup := by
  induction p with
  | nil => exact ⟨[], trivial, rfl, Nat.le_refl 0, List.nodup_singleton s⟩
  | cons hop p ih =>
      obtain ⟨q, hq, hended, hlen, hnodup⟩ := ih h.1
      by_cases hmem : hop.2 ∈ nodes s q
      · -- The node was met before: the hops up to then are the walk.
        obtain ⟨a, b, rfl, hb⟩ := split_of_mem_nodes hmem
        rw [isWalk_append] at hq
        rw [nodes_append] at hnodup
        rw [List.length_append] at hlen
        refine ⟨b, hq.1, hb, ?_, hnodup.of_append_right⟩
        rw [List.length_cons]
        omega
      · refine ⟨hop :: q, ⟨hq, ?_⟩, rfl, Nat.succ_le_succ hlen, ?_⟩
        · rw [hended]
          exact h.2
        · rw [nodes_cons]
          exact List.nodup_cons.2 ⟨hmem, hnodup⟩

/-- A hop of a walk is a step from where the hops before it led. -/
theorem step_of_mem {e : E} {p : List (E × V)} (h : IsWalk step s p) (he : e ∈ edges p) :
    ∃ q v b, p = q ++ (e, v) :: b ∧ step (ended s b) e v := by
  obtain ⟨hop, hmem, rfl⟩ := List.mem_map.1 he
  obtain ⟨q, b, rfl⟩ := List.append_of_mem hmem
  rw [isWalk_append] at h
  exact ⟨q, hop.2, b, rfl, h.1.2⟩

/-- A walk that repeats no node repeats no edge. -/
theorem nodup_edges (hjoins : Joins step) {p : List (E × V)} (h : IsWalk step s p)
    (hnodup : (nodes s p).Nodup) : (edges p).Nodup := by
  induction p with
  | nil => exact List.nodup_nil
  | cons hop p ih =>
      rw [nodes_cons, List.nodup_cons] at hnodup
      rw [edges, List.map_cons, List.nodup_cons]
      refine ⟨fun hmem => hnodup.1 ?_, ih h.1 hnodup.2⟩
      obtain ⟨q, v, b, rfl, hstep⟩ := step_of_mem h.1 hmem
      rw [nodes_append, nodes_cons, List.mem_append, List.mem_cons]
      obtain ⟨-, heq⟩ | ⟨-, heq⟩ := hjoins _ _ _ _ _ hstep h.2
      · exact Or.inr (Or.inl heq)
      · rw [heq]
        exact Or.inr (Or.inr (ended_mem_nodes b))

/-- A walk that repeats no node is closed by an edge it did not go over, or is one hop over
the edge that closes it. -/
theorem closed_by (hjoins : Joins step) {e : E} {p : List (E × V)} (h : IsWalk step s p)
    (hnodup : (nodes s p).Nodup) (hclose : step (ended s p) e s) :
    e ∉ edges p ∨ ∃ v, p = [(e, v)] := by
  by_cases hmem : e ∈ edges p
  case neg => exact Or.inl hmem
  case pos =>
    right
    obtain ⟨q, v, b, rfl, hstep⟩ := step_of_mem h hmem
    rw [nodes_append, nodes_cons] at hnodup
    have hv : v ∉ nodes s b := (List.nodup_cons.1 hnodup.of_append_right).1
    obtain ⟨-, heq⟩ | ⟨hv', hb⟩ := hjoins _ _ _ _ _ hstep hclose
    · rw [← heq] at hv
      exact absurd (start_mem_nodes b) hv
    · have hq : q = [] := by
        cases q with
        | nil => rfl
        | cons hop q =>
            have heq : hop.2 = v := hv'
            simp [heq] at hnodup
      have hb' : b = [] := by
        cases b with
        | nil => rfl
        | cons hop b =>
            have heq : s = hop.2 := hb
            have hdup := (List.nodup_cons.1 hnodup.of_append_right).2
            rw [nodes_cons, ← heq, List.nodup_cons] at hdup
            exact absurd (start_mem_nodes b) hdup.1
      subst hq
      subst hb'
      exact ⟨v, rfl⟩

/-- The hops of a walk are as many as lead to where it ends. -/
theorem hops_iff {d : ℕ} {w : V} :
    Hops (fun u v => ∃ e, step u e v) (· = s) d w ↔
      ∃ p, IsWalk step s p ∧ p.length = d ∧ ended s p = w := by
  induction d generalizing w with
  | zero =>
      constructor
      · rintro rfl
        exact ⟨[], trivial, rfl, rfl⟩
      · rintro ⟨p, -, hlen, hended⟩
        rw [List.length_eq_zero_iff] at hlen
        subst hlen
        exact hended.symm
  | succ d ih =>
      constructor
      · rintro ⟨u, hu, e, hstep⟩
        obtain ⟨p, hp, hlen, rfl⟩ := ih.1 hu
        exact ⟨(e, w) :: p, ⟨hp, hstep⟩, congrArg Nat.succ hlen, rfl⟩
      · rintro ⟨p, hp, hlen, hended⟩
        cases p with
        | nil => exact absurd hlen (Nat.succ_ne_zero d).symm
        | cons hop p =>
            obtain rfl : hop.2 = w := hended
            exact ⟨ended s p, ih.2 ⟨p, hp.1, Nat.succ.inj hlen, rfl⟩, hop.1, hp.2⟩

end Walks

end Zu.Lib
