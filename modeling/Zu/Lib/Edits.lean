import Mathlib

/-!
# Edits of a keyed list

An edit puts an entry on the end of a list or takes every entry with a key out of
it. `run` makes the edits one after the other and `together` makes them as one: all
the entries go on, and then all the keys come out. The two leave the same entries
exactly when no entry that is added outlives an earlier removal of its key.
-/

namespace Zu.Lib

/-- An entry put on the end of a list, or a key taken out of it. -/
inductive Edit (α κ : Type*)
  | add (a : α)
  | drop (k : κ)

namespace Edit

variable {α κ : Type*} [DecidableEq κ] {key : α → κ}

def added : List (Edit α κ) → List α
  | [] => []
  | add a :: es => a :: added es
  | drop _ :: es => added es

/-- The keys a list of edits takes out. -/
def dropped : List (Edit α κ) → List κ
  | [] => []
  | add _ :: es => dropped es
  | drop k :: es => k :: dropped es

def apply (key : α → κ) (l : List α) : Edit α κ → List α
  | add a => l ++ [a]
  | drop k => l.filter fun a => key a ≠ k

def run (key : α → κ) (l : List α) (es : List (Edit α κ)) : List α := es.foldl (apply key) l

def together (key : α → κ) (l : List α) (es : List (Edit α κ)) : List α :=
  (l ++ added es).filter fun a => key a ∉ dropped es

/-- The entries added that no later edit takes out. -/
def lasting (key : α → κ) : List (Edit α κ) → List α
  | [] => []
  | add a :: es => if key a ∈ dropped es then lasting key es else a :: lasting key es
  | drop _ :: es => lasting key es

attribute [grind =] lasting

/-- Every entry added after its key was taken out has its key taken out again. -/
def Settled (key : α → κ) (es : List (Edit α κ)) : Prop :=
  ∀ pre a post, es = pre ++ add a :: post → key a ∈ dropped pre → key a ∈ dropped post

omit [DecidableEq κ] in
theorem dropped_append (es es' : List (Edit α κ)) :
    dropped (es ++ es') = dropped es ++ dropped es' := by
  induction es with
  | nil => rfl
  | cons e es ih =>
      cases e with
      | add a => exact ih
      | drop k => exact congrArg (k :: ·) ih

theorem mem_lasting {a : α} {es : List (Edit α κ)} :
    a ∈ lasting key es ↔ ∃ pre post, es = pre ++ add a :: post ∧ key a ∉ dropped post := by
  induction es with
  | nil => simp [lasting]
  | cons e es ih =>
      have hlater : a ∈ lasting key es →
          ∃ pre post, e :: es = pre ++ add a :: post ∧ key a ∉ dropped post := by
        intro h
        obtain ⟨pre, post, rfl, hpost⟩ := ih.1 h
        exact ⟨e :: pre, post, rfl, hpost⟩
      constructor
      · intro h
        cases e with
        | add b =>
            rw [lasting] at h
            split at h
            · exact hlater h
            · rename_i hb
              rcases List.mem_cons.1 h with rfl | h
              · exact ⟨[], es, rfl, hb⟩
              · exact hlater h
        | drop k => exact hlater h
      · rintro ⟨pre, post, hes, hpost⟩
        cases pre with
        | nil =>
            obtain ⟨rfl, rfl⟩ := List.cons.inj hes
            rw [lasting, if_neg hpost]
            exact List.mem_cons_self
        | cons c pre =>
            obtain ⟨rfl, rfl⟩ := List.cons.inj hes
            have h := ih.2 ⟨pre, post, rfl, hpost⟩
            cases e with
            | add b =>
                rw [lasting]
                split
                · exact h
                · exact List.mem_cons_of_mem b h
            | drop k => exact h

theorem settled_iff {es : List (Edit α κ)} :
    Settled key es ↔ ∀ a ∈ lasting key es, key a ∉ dropped es := by
  constructor
  · intro h a ha hmem
    obtain ⟨pre, post, rfl, hpost⟩ := mem_lasting.1 ha
    rw [dropped_append] at hmem
    rcases List.mem_append.1 hmem with hmem | hmem
    · exact hpost (h pre a post rfl hmem)
    · exact hpost hmem
  · intro h pre a post hes hpre
    by_contra hpost
    apply h a (mem_lasting.2 ⟨pre, post, hes, hpost⟩)
    rw [hes, dropped_append]
    exact List.mem_append_left _ hpre

theorem together_singleton (l : List α) (e : Edit α κ) : together key l [e] = apply key l e := by
  cases e with
  | add a => simp [together, added, dropped, apply]
  | drop k => simp [together, added, dropped, apply]

theorem run_eq (l : List α) (es : List (Edit α κ)) :
    run key l es = (l.filter fun a => key a ∉ dropped es) ++ lasting key es := by
  induction es generalizing l with
  | nil => simp [run, dropped, lasting]
  | cons e es ih =>
      have hrun : run key l (e :: es) = run key (apply key l e) es := rfl
      rw [hrun, ih]
      cases e with
      | add a =>
          rw [apply, List.filter_append, dropped, lasting, List.append_assoc]
          congr 1
          by_cases h : key a ∈ dropped es <;> simp [h]
      | drop k =>
          rw [apply, List.filter_filter, dropped, lasting]
          congr 1
          apply List.filter_congr
          intro a _
          simp [Bool.and_comm]

theorem lasting_sublist (es : List (Edit α κ)) :
    (added es |>.filter fun a => key a ∉ dropped es).Sublist (lasting key es) := by
  induction es with
  | nil => exact List.Sublist.refl _
  | cons e es ih =>
      cases e with
      | add a =>
          rw [added, dropped, lasting]
          by_cases h : key a ∈ dropped es
          · simpa [h] using ih
          · simpa [h] using ih
      | drop k =>
          rw [added, dropped, lasting]
          apply List.Sublist.trans _ ih
          apply List.monotone_filter_right
          intro a ha
          simp only [List.mem_cons, not_or, decide_eq_true_eq] at ha ⊢
          exact ha.2

/-- Edits made as one leave the entries the edits made in turn leave, exactly when
none that is left was added behind a removal of its key. -/
theorem together_perm_run_iff (l : List α) (es : List (Edit α κ)) :
    (together key l es).Perm (run key l es) ↔ Settled key es := by
  have hsub : (added es |>.filter fun a => key a ∉ dropped es).Sublist (lasting key es) :=
    lasting_sublist es
  rw [together, List.filter_append, run_eq, settled_iff]
  constructor
  · intro h a ha
    have hlen := h.length_eq
    rw [List.length_append, List.length_append, Nat.add_left_cancel_iff] at hlen
    rw [← hsub.eq_of_length hlen] at ha
    simpa using (List.mem_filter.1 ha).2
  · intro h
    have hlasting : (lasting key es).filter (fun a => key a ∉ dropped es) = lasting key es := by
      rw [List.filter_eq_self]
      intro a ha
      simpa using h a ha
    have hall : (lasting key es).Sublist (added es) := by
      clear hsub h hlasting
      induction es with
      | nil => exact List.Sublist.refl _
      | cons e es ih =>
          cases e with
          | add a =>
              rw [lasting, added]
              split
              · exact ih.cons a
              · exact ih.cons_cons a
          | drop k => exact ih
    have hback := hall.filter fun a => decide (key a ∉ dropped es)
    rw [hlasting] at hback
    rw [hsub.antisymm hback]

end Edit

end Zu.Lib
