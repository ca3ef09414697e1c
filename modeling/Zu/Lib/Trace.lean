import Mathlib

/-!
# Effects that commute

A list of effects is folded over a state and each effect has a key. When effects
with different keys commute, what a list does depends only on the order of the
effects at each key: two lists with the same subsequence at every key do the
same.
-/

namespace Zu

namespace Lib

variable {σ ε κ : Type*} {f : σ → ε → σ} {key : ε → κ}

/-- An effect moves to the front past effects with other keys. -/
theorem foldl_append_cons (hcomm : ∀ s a b, key a ≠ key b → f (f s a) b = f (f s b) a)
    {pre : List ε} {a : ε} (hpre : ∀ b ∈ pre, key b ≠ key a) (post : List ε) (s : σ) :
    (pre ++ a :: post).foldl f s = (a :: (pre ++ post)).foldl f s := by
  induction pre generalizing s with
  | nil => rfl
  | cons b pre ih =>
      have hb : key b ≠ key a := hpre b List.mem_cons_self
      rw [List.cons_append, List.foldl_cons,
        ih (fun c hc => hpre c (List.mem_cons_of_mem b hc)), List.foldl_cons,
        hcomm s b a hb]
      rfl

/-- Two lists of effects that agree at every key do the same. -/
theorem foldl_eq_of_filter_eq [DecidableEq κ]
    (hcomm : ∀ s a b, key a ≠ key b → f (f s a) b = f (f s b) a) {as bs : List ε}
    (h : ∀ k, as.filter (key · = k) = bs.filter (key · = k)) (s : σ) :
    as.foldl f s = bs.foldl f s := by
  induction as generalizing bs s with
  | nil =>
      have hbs : bs = [] := by
        cases bs with
        | nil => rfl
        | cons b bs => simpa using h (key b)
      rw [hbs]
  | cons a as ih =>
      have ha := h (key a)
      rw [List.filter_cons_of_pos (by simp)] at ha
      obtain ⟨pre, post, rfl, hpre, -, hpost⟩ := List.filter_eq_cons_iff.1 ha.symm
      have hkeys : ∀ b ∈ pre, key b ≠ key a := by
        intro b hb
        simpa using hpre b hb
      have hrest : ∀ k, as.filter (key · = k) = (pre ++ post).filter (key · = k) := by
        intro k
        have hk := h k
        rw [List.filter_append, List.filter_cons, List.filter_cons] at hk
        rw [List.filter_append]
        by_cases hak : key a = k
        · have hnone : pre.filter (key · = k) = [] := by
            rw [List.filter_eq_nil_iff]
            intro b hb
            simpa [← hak] using hkeys b hb
          simpa [hak, hnone] using hk
        · simpa [hak] using hk
      rw [foldl_append_cons hcomm hkeys, List.foldl_cons, List.foldl_cons, ih hrest]

end Lib

end Zu

/-!
## Rewrites by position

A list of entries, each for a position, applied one after the other to a list. Where
no position is named twice, an element ends as the entry of its position makes it, and
the others stay as they are.
-/

namespace Zu

namespace Lib

variable {α β : Type*} {act : β → α → α}

/-- Rewrites each position that is named by what its entry does. -/
def rewriteAt (act : β → α → α) (l : List α) (us : List (ℕ × β)) : List α :=
  us.foldl (fun l u => l.modify u.1 (act u.2)) l

theorem rewriteAt_cons (l : List α) (u : ℕ × β) (us : List (ℕ × β)) :
    rewriteAt act l (u :: us) = rewriteAt act (l.modify u.1 (act u.2)) us := rfl

theorem length_rewriteAt (l : List α) (us : List (ℕ × β)) :
    (rewriteAt act l us).length = l.length := by
  induction us generalizing l with
  | nil => rfl
  | cons u us ih => rw [rewriteAt_cons, ih, List.length_modify]

theorem getElem?_rewriteAt_of_not_mem {l : List α} {us : List (ℕ × β)} {i : ℕ}
    (h : ∀ u ∈ us, u.1 ≠ i) : (rewriteAt act l us)[i]? = l[i]? := by
  induction us generalizing l with
  | nil => rfl
  | cons u us ih =>
      rw [rewriteAt_cons, ih fun v hv => h v (List.mem_cons_of_mem u hv),
        List.getElem?_modify_ne _ _ (h u List.mem_cons_self)]

theorem getElem?_rewriteAt_of_mem {l : List α} {us : List (ℕ × β)} {i : ℕ} {b : β}
    (hnodup : (us.map Prod.fst).Nodup) (h : (i, b) ∈ us) :
    (rewriteAt act l us)[i]? = l[i]?.map (act b) := by
  induction us generalizing l with
  | nil => cases h
  | cons u us ih =>
      rw [List.map_cons, List.nodup_cons] at hnodup
      rw [rewriteAt_cons]
      cases List.mem_cons.1 h with
      | inl hu =>
          subst hu
          rw [getElem?_rewriteAt_of_not_mem, List.getElem?_modify_eq]
          · rfl
          · intro v hv heq
            exact hnodup.1 (List.mem_map.2 ⟨v, hv, heq⟩)
      | inr hus =>
          have hmem : i ∈ us.map Prod.fst := List.mem_map.2 ⟨_, hus, rfl⟩
          have hne : u.1 ≠ i := fun heq => hnodup.1 (heq ▸ hmem)
          rw [ih hnodup.2 hus, List.getElem?_modify_ne _ _ hne]

end Lib

end Zu

/-!
## Masks

A change of a set puts some elements in and takes others out. One change after another
is a change, and when the two parts of each are disjoint, so are the parts of both.
-/

namespace Zu

namespace Lib

/-- What is put in and what is taken out, of which nothing is both. -/
structure Masks (α : Type*) [BooleanAlgebra α] where
  add : α
  remove : α
  disjoint : Disjoint add remove

namespace Masks

variable {α : Type*} [BooleanAlgebra α]

/-- The set after the change. -/
def act (c : Masks α) (w : α) : α := (w ⊔ c.add) \ c.remove

/-- The change that changes nothing. -/
def idle : Masks α where
  add := ⊥
  remove := ⊥
  disjoint := disjoint_bot_left

theorem act_idle (w : α) : idle.act w = w := by
  rw [act, idle, sup_bot_eq, sdiff_bot]

/-- One change and then another. -/
def andThen (c d : Masks α) : Masks α where
  add := (c.add \ d.remove) ⊔ d.add
  remove := (c.remove \ d.add) ⊔ d.remove
  disjoint := by
    rw [disjoint_sup_left, disjoint_sup_right, disjoint_sup_right]
    refine ⟨⟨?_, disjoint_sdiff_self_left⟩, disjoint_sdiff_self_right, d.disjoint⟩
    exact c.disjoint.mono sdiff_le sdiff_le

theorem act_andThen (c d : Masks α) (w : α) : (c.andThen d).act w = d.act (c.act w) := by
  have hput : (w ⊔ (c.add \ d.remove ⊔ d.add)) \ d.remove = (w ⊔ c.add ⊔ d.add) \ d.remove := by
    rw [sup_sdiff, sup_sdiff, sdiff_idem, ← sup_sdiff, ← sup_sdiff, sup_assoc]
  have hkept : (w ⊔ c.add ⊔ d.add) \ (c.remove \ d.add) = (w ⊔ c.add) \ c.remove ⊔ d.add := by
    rw [sdiff_sdiff_right', inf_eq_right.2 le_sup_right, sup_sdiff, sup_assoc,
      sup_eq_right.2 sdiff_le]
  calc (c.andThen d).act w
      = ((w ⊔ (c.add \ d.remove ⊔ d.add)) \ d.remove) \ (c.remove \ d.add) := by
        rw [sdiff_sdiff_left, sup_comm d.remove]
        rfl
    _ = ((w ⊔ c.add ⊔ d.add) \ (c.remove \ d.add)) \ d.remove := by
        rw [hput, sdiff_right_comm]
    _ = d.act (c.act w) := by rw [hkept, act, act]

end Masks

end Lib

end Zu
