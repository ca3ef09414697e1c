import Mathlib

/-!
# Hops

How many hops a node is from a set of nodes, in a graph of which only the edges are known.
A node is of a level when it is reached in so many hops and in no fewer.
-/

namespace Zu.Lib

variable {V : Type*} (adj : V → V → Prop) (start : V → Prop)

/-- Reached in so many hops. -/
def Hops : ℕ → V → Prop
  | 0, w => start w
  | d + 1, w => ∃ u, Hops d u ∧ adj u w

/-- Reached in so many hops or fewer. -/
def Within (d : ℕ) (w : V) : Prop := ∃ e ≤ d, Hops adj start e w

/-- Reached in so many hops and in no fewer. -/
def Level (d : ℕ) (w : V) : Prop := Hops adj start d w ∧ ∀ e < d, ¬ Hops adj start e w

variable {adj start} {d e : ℕ} {w : V}

theorem level_zero : Level adj start 0 w ↔ start w := by
  rw [Level]
  simp [Hops]

theorem level_unique (hd : Level adj start d w) (he : Level adj start e w) : d = e := by
  rcases lt_trichotomy d e with hlt | heq | hlt
  · exact absurd hd.1 (he.2 d hlt)
  · exact heq
  · exact absurd he.1 (hd.2 e hlt)

/-- What is reached within a bound is of a level within it. -/
theorem within_iff_level : Within adj start d w ↔ ∃ e ≤ d, Level adj start e w := by
  classical
  constructor
  · rintro ⟨e, he, hops⟩
    have hex : ∃ k, Hops adj start k w := ⟨e, hops⟩
    refine ⟨Nat.find hex, (Nat.find_min' hex hops).trans he, Nat.find_spec hex, ?_⟩
    exact fun k hk => Nat.find_min hex hk
  · rintro ⟨e, he, hlevel⟩
    exact ⟨e, he, hlevel.1⟩

/-- The next level is what the level before it leads to and was not reached before. -/
theorem level_succ : Level adj start (d + 1) w ↔
    (∃ u, Level adj start d u ∧ adj u w) ∧ ¬ Within adj start d w := by
  constructor
  · rintro ⟨⟨u, hu, huw⟩, hmin⟩
    refine ⟨⟨u, ⟨hu, fun e he hops => ?_⟩, huw⟩, ?_⟩
    · exact hmin (e + 1) (Nat.succ_lt_succ he) ⟨u, hops, huw⟩
    · rintro ⟨e, he, hops⟩
      exact hmin e (Nat.lt_succ_of_le he) hops
  · rintro ⟨⟨u, hu, huw⟩, hnone⟩
    refine ⟨⟨u, hu.1, huw⟩, fun e he hops => ?_⟩
    exact hnone ⟨e, Nat.le_of_lt_succ he, hops⟩

theorem within_succ :
    Within adj start (d + 1) w ↔ Within adj start d w ∨ Level adj start (d + 1) w := by
  rw [within_iff_level, within_iff_level]
  constructor
  · rintro ⟨e, he, hlevel⟩
    rcases Nat.lt_or_ge d e with hlt | hle
    · obtain rfl : e = d + 1 := Nat.le_antisymm he hlt
      exact Or.inr hlevel
    · exact Or.inl ⟨e, hle, hlevel⟩
  · rintro (⟨e, he, hlevel⟩ | hlevel)
    · exact ⟨e, he.trans (Nat.le_succ d), hlevel⟩
    · exact ⟨d + 1, le_rfl, hlevel⟩

/-- Every level before one that has a node has a node. -/
theorem exists_level (h : Level adj start d w) : ∀ e ≤ d, ∃ u, Level adj start e u := by
  induction d generalizing w with
  | zero =>
      intro e he
      obtain rfl : e = 0 := Nat.le_zero.1 he
      exact ⟨w, h⟩
  | succ d ih =>
      intro e he
      obtain ⟨⟨u, hu, -⟩, -⟩ := level_succ.1 h
      rcases Nat.lt_or_ge d e with hlt | hle
      · obtain rfl : e = d + 1 := Nat.le_antisymm he hlt
        exact ⟨w, h⟩
      · exact ih hu e hle

/-- Behind an empty level nothing more is reached. -/
theorem within_of_empty (h : ∀ u, ¬ Level adj start d u) (k : ℕ) :
    Within adj start k w → Within adj start d w := by
  intro hk
  rw [within_iff_level] at hk ⊢
  obtain ⟨e, -, hlevel⟩ := hk
  refine ⟨e, ?_, hlevel⟩
  by_contra hlt
  obtain ⟨u, hu⟩ := exists_level hlevel d (Nat.le_of_not_le hlt)
  exact h u hu

/-- A level is less than the number of nodes that are of any. -/
theorem level_lt_card {s : Finset V} (hs : ∀ d w, Level adj start d w → w ∈ s)
    (h : Level adj start d w) : d < s.card := by
  choose u hu using exists_level h
  have hinj : Function.Injective fun i : Fin (d + 1) =>
      (⟨u i (Nat.le_of_lt_succ i.2), hs _ _ (hu i (Nat.le_of_lt_succ i.2))⟩ : s) := by
    intro i j hij
    have hval : u i (Nat.le_of_lt_succ i.2) = u j (Nat.le_of_lt_succ j.2) :=
      congrArg Subtype.val hij
    have hi := hu i (Nat.le_of_lt_succ i.2)
    rw [hval] at hi
    exact Fin.ext (level_unique hi (hu j (Nat.le_of_lt_succ j.2)))
  have hcard := Fintype.card_le_of_injective _ hinj
  rw [Fintype.card_fin, Fintype.card_coe] at hcard
  exact hcard

/-- A level is less than the number of nodes. -/
theorem level_lt {adj : ℕ → ℕ → Prop} {start : ℕ → Prop} {d n w : ℕ}
    (hn : ∀ d w, Level adj start d w → w < n) (h : Level adj start d w) : d < n := by
  rw [← Finset.card_range n]
  exact level_lt_card (fun d w hw => Finset.mem_range.2 (hn d w hw)) h

/-! ### Paths that are put together -/

/-- Hops on from where other hops lead. -/
theorem Hops.trans {u : V} (hd : Hops adj start d u) (he : Hops adj (· = u) e w) :
    Hops adj start (d + e) w := by
  induction e generalizing w with
  | zero =>
      rw [show w = u from he]
      exact hd
  | succ e ih =>
      obtain ⟨v, hv, hvw⟩ := he
      exact ⟨v, ih hv, hvw⟩

/-- Hops that are gone back from a node go on to it. -/
theorem Hops.join {b : V} (hd : Hops adj start d w) (he : Hops (fun v u => adj u v) (· = b) e w) :
    Hops adj start (d + e) b := by
  induction e generalizing d w with
  | zero =>
      rw [← show w = b from he]
      exact hd
  | succ e ih =>
      obtain ⟨u, hu, hwu⟩ := he
      have hnext : Hops adj start (d + 1) u := ⟨w, hd, hwu⟩
      rw [Nat.add_comm e 1, ← Nat.add_assoc]
      exact ih hnext hu

/-- Hops to a node are hops to some other and those gone back to it. -/
theorem Hops.split {b : V} (h : Hops adj start (d + e) b) :
    ∃ w, Hops adj start d w ∧ Hops (fun v u => adj u v) (· = b) e w := by
  induction e generalizing b with
  | zero => exact ⟨b, h, rfl⟩
  | succ e ih =>
      obtain ⟨u, hu, hub⟩ := h
      obtain ⟨w, hw, hback⟩ := ih hu
      have hone : Hops (fun v u => adj u v) (· = b) 1 u := ⟨b, rfl, hub⟩
      refine ⟨w, hw, ?_⟩
      rw [Nat.add_comm]
      exact hone.trans hback

/-- Hops from one node to another are as many back. -/
theorem Hops.back {a b : V} (h : Hops adj (· = a) d b) :
    Hops (fun v u => adj u v) (· = b) d a := by
  rw [← Nat.zero_add d] at h
  obtain ⟨w, rfl, hback⟩ := h.split
  exact hback

theorem level_back {a b : V} :
    Level adj (· = a) d b ↔ Level (fun v u => adj u v) (· = b) d a := by
  rw [Level, Level]
  constructor
  · rintro ⟨hops, hmin⟩
    exact ⟨hops.back, fun e he hback => hmin e he hback.back⟩
  · rintro ⟨hops, hmin⟩
    exact ⟨hops.back, fun e he hback => hmin e he hback.back⟩

theorem Hops.exists_level (h : Hops adj start d w) : ∃ e ≤ d, Level adj start e w :=
  within_iff_level.1 ⟨d, Nat.le_refl d, h⟩

theorem Level.le_of_hops (h : Level adj start d w) (he : Hops adj start e w) : d ≤ e := by
  by_contra hlt
  exact h.2 e (Nat.lt_of_not_le hlt) he

/-- A node on a shortest path is of a level from either end. -/
theorem Level.split {b : V} (h : Level adj start (d + e) b) :
    ∃ w, Level adj start d w ∧ Level (fun v u => adj u v) (· = b) e w := by
  obtain ⟨w, hw, hback⟩ := h.1.split
  refine ⟨w, ⟨hw, fun k hk hops => ?_⟩, ⟨hback, fun k hk hops => ?_⟩⟩
  · have := h.le_of_hops (hops.join hback)
    omega
  · have := h.le_of_hops (hw.join hops)
    omega

/-- The levels about two nodes that do not meet are together fewer than the nodes. -/
theorem levels_apart {adj adj' : ℕ → ℕ → Prop} {start start' : ℕ → Prop} {d d' n w w' : ℕ}
    (hn : ∀ d w, Level adj start d w → w < n) (hn' : ∀ d w, Level adj' start' d w → w < n)
    (h : Level adj start d w) (h' : Level adj' start' d' w')
    (hapart : ∀ u, ¬ (Within adj start d u ∧ Within adj' start' d' u)) : d + d' + 2 ≤ n := by
  choose u hu using Zu.Lib.exists_level h
  choose v hv using Zu.Lib.exists_level h'
  have hinj : Function.Injective (Sum.elim
      (fun i : Fin (d + 1) =>
        (⟨u i (Nat.le_of_lt_succ i.2), hn _ _ (hu i (Nat.le_of_lt_succ i.2))⟩ : Fin n))
      (fun i : Fin (d' + 1) =>
        (⟨v i (Nat.le_of_lt_succ i.2), hn' _ _ (hv i (Nat.le_of_lt_succ i.2))⟩ : Fin n))) := by
    have hmeet : ∀ (i : Fin (d + 1)) (j : Fin (d' + 1)),
        u i (Nat.le_of_lt_succ i.2) ≠ v j (Nat.le_of_lt_succ j.2) := by
      intro i j heq
      apply hapart (u i (Nat.le_of_lt_succ i.2))
      refine ⟨⟨i, Nat.le_of_lt_succ i.2, (hu i _).1⟩, ⟨j, Nat.le_of_lt_succ j.2, ?_⟩⟩
      rw [heq]
      exact (hv j _).1
    apply Function.Injective.sumElim
    · intro i j hij
      have hval : u i (Nat.le_of_lt_succ i.2) = u j (Nat.le_of_lt_succ j.2) := congrArg Fin.val hij
      have hi := hu i (Nat.le_of_lt_succ i.2)
      rw [hval] at hi
      exact Fin.ext (level_unique hi (hu j (Nat.le_of_lt_succ j.2)))
    · intro i j hij
      have hval : v i (Nat.le_of_lt_succ i.2) = v j (Nat.le_of_lt_succ j.2) := congrArg Fin.val hij
      have hi := hv i (Nat.le_of_lt_succ i.2)
      rw [hval] at hi
      exact Fin.ext (level_unique hi (hv j (Nat.le_of_lt_succ j.2)))
    · intro i j heq
      exact hmeet i j (congrArg Fin.val heq)
  have hcard := Fintype.card_le_of_injective _ hinj
  rw [Fintype.card_sum, Fintype.card_fin, Fintype.card_fin, Fintype.card_fin] at hcard
  omega

end Zu.Lib
