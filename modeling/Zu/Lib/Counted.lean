import Mathlib

/-!
# Counted pointers

A heap of objects, each holding pointers of its own, under the pointers held outside
it. A pointer is made ready to write into by copying what it points at, unless it is
the only one there: what the others reach is left as it was either way. The pointers
are two deep, so what is reached is what is held and what that holds.
-/

namespace Zu.Lib

variable {α : Type*} (links : α → List ℕ)

/-- The pointers held by what is at an address. -/
def linksAt (h : List α) (a : ℕ) : List ℕ := (h[a]?.map links).getD []

/-- Every live pointer, each once: those held outside, and those of what they point at. -/
def pointers (h : List α) (roots : List ℕ) : List ℕ :=
  roots ++ roots.dedup.flatMap (linksAt links h)

def strongCount (h : List α) (roots : List ℕ) (a : ℕ) : ℕ := (pointers links h roots).count a

/-- `Arc::make_mut` of a pointer to `a` and a write of what it gives, where `roots` are
the pointers held outside the heap: the heap, and where the pointer then points. -/
def makeMut (h : List α) (roots : List ℕ) (a : ℕ) (f : α → α) : List α × ℕ :=
  if strongCount links h roots a = 1 then (h.modify a f, a)
  else (h ++ (h[a]?.map f).toList, h.length)

theorem mem_pointers {h : List α} {roots : List ℕ} {b : ℕ} :
    b ∈ pointers links h roots ↔ b ∈ roots ∨ ∃ r ∈ roots, b ∈ linksAt links h r := by
  rw [pointers, List.mem_append, List.mem_flatMap]
  simp only [List.mem_dedup]

theorem pointers_mono {h : List α} {roots roots' : List ℕ} (hsub : roots ⊆ roots') {b : ℕ}
    (hb : b ∈ pointers links h roots) : b ∈ pointers links h roots' := by
  rw [mem_pointers] at hb ⊢
  cases hb with
  | inl hroot => exact Or.inl (hsub hroot)
  | inr hlink =>
      obtain ⟨r, hr, hbr⟩ := hlink
      exact Or.inr ⟨r, hsub hr, hbr⟩

/-- What is alone at an address is reached by nothing else. -/
theorem not_mem_pointers_of_alone {h : List α} {others : List ℕ} {a : ℕ}
    (hone : strongCount links h (a :: others) a = 1) : a ∉ pointers links h others := by
  rw [strongCount, pointers, List.cons_append, List.count_cons_self] at hone
  have hnone : (others ++ (a :: others).dedup.flatMap (linksAt links h)).count a = 0 := by omega
  have hnot := List.count_eq_zero.1 hnone
  intro hmem
  apply hnot
  rw [List.mem_append, List.mem_flatMap]
  rw [mem_pointers] at hmem
  cases hmem with
  | inl hroot => exact Or.inl hroot
  | inr hlink =>
      obtain ⟨r, hr, har⟩ := hlink
      exact Or.inr ⟨r, List.mem_dedup.2 (List.mem_cons_of_mem a hr), har⟩

/-- The heap holds everything the pointers reach. -/
def Closed (h : List α) (roots : List ℕ) : Prop := ∀ b ∈ pointers links h roots, b < h.length

theorem closed_mono {h : List α} {roots roots' : List ℕ} (hsub : roots ⊆ roots')
    (hclosed : Closed links h roots') : Closed links h roots := fun b hb =>
  hclosed b (pointers_mono links hsub hb)

theorem closed_append {h : List α} {roots : List ℕ} (hclosed : Closed links h roots) (more : List α) :
    ∀ b ∈ pointers links h roots, (h ++ more)[b]? = h[b]? := fun b hb =>
  List.getElem?_append_left (hclosed b hb)

theorem linksAt_congr {h h' : List α} {a : ℕ} (heq : h'[a]? = h[a]?) :
    linksAt links h' a = linksAt links h a := by
  rw [linksAt, linksAt, heq]

/-- What the pointers reach is the same where nothing they reach has changed. -/
theorem mem_pointers_congr {h h' : List α} {roots : List ℕ}
    (hsame : ∀ b ∈ pointers links h roots, h'[b]? = h[b]?) (b : ℕ) :
    b ∈ pointers links h' roots ↔ b ∈ pointers links h roots := by
  have hlinks : ∀ r ∈ roots, linksAt links h' r = linksAt links h r := fun r hr =>
    linksAt_congr links (hsame r ((mem_pointers links).2 (Or.inl hr)))
  rw [mem_pointers, mem_pointers]
  constructor
  · rintro (hroot | ⟨r, hr, hbr⟩)
    · exact Or.inl hroot
    · exact Or.inr ⟨r, hr, hlinks r hr ▸ hbr⟩
  · rintro (hroot | ⟨r, hr, hbr⟩)
    · exact Or.inl hroot
    · exact Or.inr ⟨r, hr, (hlinks r hr).symm ▸ hbr⟩

/-- A later heap holds what the pointers reach as it was. -/
structure Kept (h h' : List α) (roots : List ℕ) : Prop where
  grown : h.length ≤ h'.length
  kept : ∀ b ∈ pointers links h roots, h'[b]? = h[b]?

theorem Kept.refl (h : List α) (roots : List ℕ) : Kept links h h roots := ⟨Nat.le_refl _, fun _ _ => rfl⟩

theorem Kept.trans {h h' h'' : List α} {roots : List ℕ} (hfirst : Kept links h h' roots)
    (hsecond : Kept links h' h'' roots) : Kept links h h'' roots where
  grown := Nat.le_trans hfirst.grown hsecond.grown
  kept := fun b hb => by
    rw [hsecond.kept b ((mem_pointers_congr links hfirst.kept b).2 hb), hfirst.kept b hb]

theorem Kept.mono {h h' : List α} {roots roots' : List ℕ} (hkept : Kept links h h' roots')
    (hsub : roots ⊆ roots') : Kept links h h' roots where
  grown := hkept.grown
  kept := fun b hb => hkept.kept b (pointers_mono links hsub hb)

theorem Kept.closed {h h' : List α} {roots : List ℕ} (hkept : Kept links h h' roots)
    (hclosed : Closed links h roots) : Closed links h' roots := fun b hb =>
  Nat.lt_of_lt_of_le (hclosed b ((mem_pointers_congr links hkept.kept b).1 hb)) hkept.grown

theorem Kept.root {h h' : List α} {roots : List ℕ} (hkept : Kept links h h' roots) {a : ℕ}
    (ha : a ∈ roots) : h'[a]? = h[a]? := hkept.kept a ((mem_pointers links).2 (Or.inl ha))

/-- A pointer that is the only one to what it points at, in a heap that holds what the
others reach as it was. -/
structure Alone (h h' : List α) (others : List ℕ) (a : ℕ) (o : α) : Prop
    extends Kept links h h' others where
  here : h'[a]? = some o
  apart : a ∉ pointers links h others

theorem Alone.closed {h h' : List α} {others : List ℕ} {a : ℕ} {o : α}
    (halone : Alone links h h' others a o) (hclosed : Closed links h others)
    (hlinks : ∀ b ∈ links o, b < h'.length) : Closed links h' (a :: others) := by
  intro b hb
  rw [mem_pointers] at hb
  have hothers := halone.toKept.closed links hclosed
  rcases hb with hroot | ⟨r, hr, hbr⟩
  · cases List.mem_cons.1 hroot with
    | inl heq => exact heq ▸ (List.getElem?_eq_some_iff.1 halone.here).1
    | inr hold => exact hothers b ((mem_pointers links).2 (Or.inl hold))
  · cases List.mem_cons.1 hr with
    | inl heq =>
        rw [heq, linksAt, halone.here] at hbr
        exact hlinks b hbr
    | inr hold => exact hothers b ((mem_pointers links).2 (Or.inr ⟨r, hold, hbr⟩))

/-- What is allocated is reached by nobody. -/
theorem alone_alloc {h : List α} {others : List ℕ} (hclosed : Closed links h others) (o : α) :
    Alone links h (h ++ [o]) others h.length o where
  here := List.getElem?_concat_length
  apart := fun hmem => Nat.lt_irrefl _ (hclosed _ hmem)
  grown := by
    rw [List.length_append]
    exact Nat.le_add_right _ _
  kept := closed_append links hclosed _

theorem alone_modify {h : List α} {others : List ℕ} {a : ℕ} {o : α}
    (hnot : a ∉ pointers links h others) (ho : h[a]? = some o) (f : α → α) :
    Alone links h (h.modify a f) others a (f o) where
  here := by
    rw [List.getElem?_modify_eq, ho]
    rfl
  apart := hnot
  grown := Nat.le_of_eq (List.length_modify _ _ _).symm
  kept := fun b hb => List.getElem?_modify_ne _ _ fun heq => hnot (heq ▸ hb)

/-- A pointer made ready and written through points at what was written. -/
theorem alone_makeMut {h : List α} {others : List ℕ} {a : ℕ} {o : α}
    (hclosed : Closed links h others) (ho : h[a]? = some o) (f : α → α) :
    Alone links h (makeMut links h (a :: others) a f).1 others
      (makeMut links h (a :: others) a f).2 (f o) := by
  rw [makeMut]
  split
  case isTrue hone =>
    exact alone_modify links (not_mem_pointers_of_alone links hone) ho f
  case isFalse =>
    rw [ho]
    exact alone_alloc links hclosed (f o)

/-- What a pointer's own object points at is as it was. -/
theorem makeMut_links {h : List α} {others : List ℕ} {a : ℕ} (hclosed : Closed links h (a :: others))
    (f : α → α) {b : ℕ} (hb : b ∈ linksAt links h a) :
    (makeMut links h (a :: others) a f).1[b]? = h[b]? := by
  have hmem : b ∈ pointers links h (a :: others) :=
    (mem_pointers links).2 (Or.inr ⟨a, List.mem_cons_self, hb⟩)
  rw [makeMut]
  split
  case isTrue hone =>
    apply List.getElem?_modify_ne
    rintro rfl
    have htwo : 2 ≤ strongCount links h (a :: others) a := by
      have hin : 0 < ((a :: others).dedup.flatMap (linksAt links h)).count a := by
        apply List.count_pos_iff.2
        exact List.mem_flatMap.2 ⟨a, List.mem_dedup.2 List.mem_cons_self, hb⟩
      rw [strongCount, pointers, List.count_append, List.count_cons_self]
      omega
    omega
  case isFalse => exact List.getElem?_append_left (hclosed b hmem)

/-- A pointer counted once, and held by an object, is held nowhere else. -/
theorem only_link {h : List α} {roots : List ℕ} {t c : ℕ} (hone : strongCount links h (t :: roots) c = 1)
    (hc : c ∈ linksAt links h t) :
    c ∉ t :: roots ∧ (linksAt links h t).count c = 1 ∧
      ∀ r ∈ t :: roots, r ≠ t → c ∉ linksAt links h r := by
  have hperm := (List.perm_cons_erase
    (List.mem_dedup.2 (List.mem_cons_self (a := t) (l := roots)))).flatMap_right (linksAt links h)
  rw [strongCount, pointers, List.count_append, hperm.count_eq, List.flatMap_cons,
    List.count_append] at hone
  have hpos := List.count_pos_iff.2 hc
  have hroots : (t :: roots).count c = 0 := by omega
  have hothers : (((t :: roots).dedup.erase t).flatMap (linksAt links h)).count c = 0 := by omega
  constructor
  · exact List.count_eq_zero.1 hroots
  · constructor
    · omega
    · intro r hr hrt hcr
      apply List.count_eq_zero.1 hothers
      exact List.mem_flatMap.2 ⟨r, (List.mem_erase_of_ne hrt).2 (List.mem_dedup.2 hr), hcr⟩

/-- What occurs once is at one place. -/
theorem getElem?_inj_of_count_one {l : List ℕ} {c i j : ℕ} (hone : l.count c = 1)
    (hi : l[i]? = some c) (hj : l[j]? = some c) : i = j := by
  induction l generalizing i j with
  | nil => exact absurd hi (by simp)
  | cons a l ih =>
      cases i with
      | zero =>
          cases j with
          | zero => rfl
          | succ j =>
              have ha : a = c := by simpa using hi
              have hmem : c ∈ l := List.mem_of_getElem? (by simpa using hj)
              have hpos := List.count_pos_iff.2 hmem
              rw [ha, List.count_cons_self] at hone
              omega
      | succ i =>
          have hmem : c ∈ l := List.mem_of_getElem? (by simpa using hi)
          have hpos := List.count_pos_iff.2 hmem
          cases j with
          | zero =>
              have ha : a = c := by simpa using hj
              rw [ha, List.count_cons_self] at hone
              omega
          | succ j =>
              rw [List.count_cons] at hone
              have hl : l.count c = 1 := by omega
              have hij : i = j := ih hl (by simpa using hi) (by simpa using hj)
              rw [hij]

/-- A pointer held by an object that is itself reached by nobody else, made ready and
written through: the object and its other pointers are as they were. -/
theorem alone_makeMut_link {h : List α} {others : List ℕ} {t i c : ℕ} {o : α}
    (hclosed : Closed links h (t :: others)) (ht : t ∉ others)
    (hi : (linksAt links h t)[i]? = some c) (ho : h[c]? = some o) (f : α → α) :
    Alone links h (makeMut links h (t :: others) c f).1 others
        (makeMut links h (t :: others) c f).2 (f o) ∧
      (makeMut links h (t :: others) c f).1[t]? = h[t]? ∧
      ∀ j b, j ≠ i → (linksAt links h t)[j]? = some b →
        (makeMut links h (t :: others) c f).1[b]? = h[b]? := by
  have hothers := closed_mono links (List.subset_cons_self t others) hclosed
  have hlink : ∀ j b, (linksAt links h t)[j]? = some b → b ∈ pointers links h (t :: others) :=
    fun j b hb => (mem_pointers links).2 (Or.inr ⟨t, List.mem_cons_self, List.mem_of_getElem? hb⟩)
  rw [makeMut]
  split
  case isTrue hone =>
    obtain ⟨hroots, honce, hrest⟩ := only_link links hone (List.mem_of_getElem? hi)
    have hnot : c ∉ pointers links h others := by
      rw [mem_pointers]
      rintro (hroot | ⟨r, hr, hcr⟩)
      · exact hroots (List.mem_cons_of_mem t hroot)
      · exact hrest r (List.mem_cons_of_mem t hr) (fun heq => ht (heq ▸ hr)) hcr
    constructor
    · exact alone_modify links hnot ho f
    · constructor
      · apply List.getElem?_modify_ne
        rintro rfl
        exact hroots List.mem_cons_self
      · intro j b hj hb
        apply List.getElem?_modify_ne
        rintro rfl
        exact hj (getElem?_inj_of_count_one honce hb hi)
  case isFalse =>
    rw [ho]
    constructor
    · exact alone_alloc links hothers (f o)
    · constructor
      · exact closed_append links hclosed _ t ((mem_pointers links).2 (Or.inl List.mem_cons_self))
      · intro j b hj hb
        exact closed_append links hclosed _ b (hlink j b hb)

end Zu.Lib
