import Mathlib

/-!
# Triples in order

Three things that are each linked to the others are counted once where the links are
followed upward only: from the lowest to the next, and from both to the highest.
-/

namespace Zu.Lib

variable {V ρ : Type*} [DecidableEq V] [LinearOrder ρ] {rank : V → ρ}

/-- Three things in order are so in one way. -/
theorem triple_unique (hrank : Function.Injective rank) {u v w u' v' w' : V}
    (huv : rank u < rank v) (hvw : rank v < rank w) (huv' : rank u' < rank v')
    (hvw' : rank v' < rank w') (h : ({u, v, w} : Finset V) = {u', v', w'}) :
    u = u' ∧ v = v' ∧ w = w' := by
  have hmem : ∀ a, a ∈ ({u, v, w} : Finset V) ↔ a ∈ ({u', v', w'} : Finset V) := by
    intro a
    rw [h]
  simp only [Finset.mem_insert, Finset.mem_singleton] at hmem
  have hlow : ∀ a, (a = u ∨ a = v ∨ a = w) → rank u ≤ rank a := by
    rintro a (rfl | rfl | rfl)
    · exact le_rfl
    · exact huv.le
    · exact (huv.trans hvw).le
  have hlow' : ∀ a, (a = u' ∨ a = v' ∨ a = w') → rank u' ≤ rank a := by
    rintro a (rfl | rfl | rfl)
    · exact le_rfl
    · exact huv'.le
    · exact (huv'.trans hvw').le
  have hhigh : ∀ a, (a = u ∨ a = v ∨ a = w) → rank a ≤ rank w := by
    rintro a (rfl | rfl | rfl)
    · exact (huv.trans hvw).le
    · exact hvw.le
    · exact le_rfl
  have hhigh' : ∀ a, (a = u' ∨ a = v' ∨ a = w') → rank a ≤ rank w' := by
    rintro a (rfl | rfl | rfl)
    · exact (huv'.trans hvw').le
    · exact hvw'.le
    · exact le_rfl
  have hu : u = u' := by
    apply hrank
    apply le_antisymm
    · exact hlow u' ((hmem u').2 (Or.inl rfl))
    · exact hlow' u ((hmem u).1 (Or.inl rfl))
  have hw : w = w' := by
    apply hrank
    apply le_antisymm
    · exact hhigh' w ((hmem w).1 (Or.inr (Or.inr rfl)))
    · exact hhigh w' ((hmem w').2 (Or.inr (Or.inr rfl)))
  refine ⟨hu, ?_, hw⟩
  rcases (hmem v).1 (Or.inr (Or.inl rfl)) with hv | hv | hv
  · rw [hv, ← hu] at huv
    exact absurd huv (lt_irrefl _)
  · exact hv
  · rw [hv, ← hw] at hvw
    exact absurd hvw (lt_irrefl _)

/-- Three different things can be put in order. -/
theorem exists_triple (hrank : Function.Injective rank) {s : Finset V} (hs : s.card = 3) :
    ∃ u v w, rank u < rank v ∧ rank v < rank w ∧ s = {u, v, w} := by
  obtain ⟨a, b, c, hab, hac, hbc, rfl⟩ := Finset.card_eq_three.1 hs
  have hne : ∀ {x y : V}, x ≠ y → rank x < rank y ∨ rank y < rank x :=
    fun hxy => lt_or_gt_of_ne (hrank.ne hxy)
  rcases hne hab with h | h <;> rcases hne hac with h' | h' <;> rcases hne hbc with h'' | h''
  · exact ⟨a, b, c, h, h'', rfl⟩
  · exact ⟨a, c, b, h', h'', by rw [Finset.pair_comm b c]⟩
  · exact absurd (h.trans h'') h'.asymm
  · exact ⟨c, a, b, h', h, by rw [Finset.insert_comm c a, Finset.pair_comm c b]⟩
  · exact ⟨b, a, c, h, h', Finset.insert_comm a b {c}⟩
  · exact absurd (h'.trans h'') h.asymm
  · exact ⟨b, c, a, h'', h', by rw [Finset.insert_comm a b, Finset.pair_comm a c]⟩
  · exact ⟨c, b, a, h'', h, by
      rw [Finset.insert_comm a b, Finset.pair_comm a c, Finset.insert_comm b c]⟩

/-- What is linked, each to the others. -/
def AllLinked (linked : V → V → Prop) (s : Finset V) : Prop :=
  ∀ u ∈ s, ∀ v ∈ s, u ≠ v → linked u v

instance (linked : V → V → Prop) [DecidableRel linked] : DecidablePred (AllLinked linked) :=
  fun s => inferInstanceAs (Decidable (∀ u ∈ s, ∀ v ∈ s, u ≠ v → linked u v))

/-- Each triple is counted at its lowest corner. -/
theorem sum_triples (hrank : Function.Injective rank) {linked : V → V → Prop}
    [DecidableRel linked] (hsymm : ∀ u v, linked u v → linked v u) {nodes : Finset V}
    {ahead : V → Finset V} (hahead : ∀ u ∈ nodes, ∀ v, v ∈ ahead u ↔
      v ∈ nodes ∧ linked u v ∧ rank u < rank v) :
    ∑ u ∈ nodes, ∑ v ∈ ahead u, (ahead u ∩ ahead v).card =
      ((nodes.powersetCard 3).filter (AllLinked linked)).card := by
  have hcard : ∑ u ∈ nodes, ∑ v ∈ ahead u, (ahead u ∩ ahead v).card =
      (nodes.sigma fun u => (ahead u).sigma fun v => ahead u ∩ ahead v).card := by
    rw [Finset.card_sigma]
    refine Finset.sum_congr rfl fun u _ => ?_
    rw [Finset.card_sigma]
  rw [hcard]
  have hspec : ∀ t ∈ nodes.sigma fun u => (ahead u).sigma fun v => ahead u ∩ ahead v,
      t.1 ∈ nodes ∧ t.2.1 ∈ nodes ∧ t.2.2 ∈ nodes ∧ rank t.1 < rank t.2.1 ∧
        rank t.2.1 < rank t.2.2 ∧ linked t.1 t.2.1 ∧ linked t.1 t.2.2 ∧ linked t.2.1 t.2.2 := by
    rintro ⟨u, v, w⟩ ht
    simp only [Finset.mem_sigma, Finset.mem_inter] at ht
    obtain ⟨hu, hv, hw, hw'⟩ := ht
    obtain ⟨hvn, huv, hrv⟩ := (hahead u hu v).1 hv
    obtain ⟨hwn, huw, -⟩ := (hahead u hu w).1 hw
    obtain ⟨-, hvw, hrw⟩ := (hahead v hvn w).1 hw'
    exact ⟨hu, hvn, hwn, hrv, hrw, huv, huw, hvw⟩
  refine Finset.card_bij (fun t _ => {t.1, t.2.1, t.2.2}) ?_ ?_ ?_
  · rintro ⟨u, v, w⟩ ht
    obtain ⟨hu, hv, hw, hruv, hrvw, huv, huw, hvw⟩ := hspec _ ht
    simp only at hu hv hw hruv hrvw huv huw hvw ⊢
    have hne : u ≠ v ∧ u ≠ w ∧ v ≠ w := by
      refine ⟨?_, ?_, ?_⟩
      · rintro rfl
        exact lt_irrefl _ hruv
      · rintro rfl
        exact lt_irrefl _ (hruv.trans hrvw)
      · rintro rfl
        exact lt_irrefl _ hrvw
    rw [Finset.mem_filter, Finset.mem_powersetCard]
    refine ⟨⟨?_, Finset.card_eq_three.2 ⟨u, v, w, hne.1, hne.2.1, hne.2.2, rfl⟩⟩, ?_⟩
    · intro a ha
      simp only [Finset.mem_insert, Finset.mem_singleton] at ha
      rcases ha with rfl | rfl | rfl
      · exact hu
      · exact hv
      · exact hw
    · intro a ha b hb hab
      simp only [Finset.mem_insert, Finset.mem_singleton] at ha hb
      rcases ha with rfl | rfl | rfl <;> rcases hb with rfl | rfl | rfl
      · exact absurd rfl hab
      · exact huv
      · exact huw
      · exact hsymm _ _ huv
      · exact absurd rfl hab
      · exact hvw
      · exact hsymm _ _ huw
      · exact hsymm _ _ hvw
      · exact absurd rfl hab
  · rintro ⟨u, v, w⟩ ht ⟨u', v', w'⟩ ht' heq
    obtain ⟨-, -, -, huv, hvw, -⟩ := hspec _ ht
    obtain ⟨-, -, -, huv', hvw', -⟩ := hspec _ ht'
    obtain ⟨rfl, rfl, rfl⟩ := triple_unique hrank huv hvw huv' hvw' heq
    rfl
  · intro s hs
    rw [Finset.mem_filter, Finset.mem_powersetCard] at hs
    obtain ⟨⟨hsub, hthree⟩, hall⟩ := hs
    obtain ⟨u, v, w, huv, hvw, rfl⟩ := exists_triple hrank hthree
    have hin : ∀ a ∈ ({u, v, w} : Finset V), a ∈ nodes := fun a ha => hsub ha
    simp only [Finset.mem_insert, Finset.mem_singleton, forall_eq_or_imp, forall_eq] at hin
    obtain ⟨hu, hv, hw⟩ := hin
    have hmem : u ∈ ({u, v, w} : Finset V) ∧ v ∈ ({u, v, w} : Finset V) ∧
        w ∈ ({u, v, w} : Finset V) := by simp
    have hne : ∀ {a b : V}, rank a < rank b → a ≠ b := by
      rintro a b hlt rfl
      exact lt_irrefl _ hlt
    have luv := hall u hmem.1 v hmem.2.1 (hne huv)
    have luw := hall u hmem.1 w hmem.2.2 (hne (huv.trans hvw))
    have lvw := hall v hmem.2.1 w hmem.2.2 (hne hvw)
    refine ⟨⟨u, v, w⟩, ?_, rfl⟩
    simp only [Finset.mem_sigma, Finset.mem_inter]
    refine ⟨hu, (hahead u hu v).2 ⟨hv, luv, huv⟩, (hahead u hu w).2 ⟨hw, luw, huv.trans hvw⟩, ?_⟩
    exact (hahead v hv w).2 ⟨hw, lvw, hvw⟩

end Zu.Lib
