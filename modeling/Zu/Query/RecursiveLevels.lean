import Zu.Lib.Fallible
import Zu.Lib.Hops
import Zu.Query.Recursive

/-!
# The levels of a search

A round claims what the frontier leads to and was not visited, in whatever order its
threads step; the levels are the fewest hops from a source.
-/

namespace Zu.Query

open Lib Checked

/-- What a round makes of the bits and the nodes it claims: what it may claim and was not
visited. -/
structure Claims (visited : Bitmap) (target : ℕ → Prop) (next : Bitmap × List ℕ) : Prop where
  length : next.1.length = visited.length
  seen : ∀ w, next.1.test w = true ↔ visited.test w = true ∨ w ∈ next.2
  found : ∀ w, w ∈ next.2 ↔ target w ∧ visited.test w = false

/-! ### Top-down rounds -/

/-- What holds of the threads of a top-down round at every step. -/
structure Expanding (visited : Bitmap) (target : ℕ → Prop) (st : Bitmap × List Expander) : Prop where
  length : st.1.length = visited.length
  seen : ∀ w, st.1.test w = true ↔ visited.test w = true ∨ w ∈ st.2.flatMap Expander.found
  found : ∀ w ∈ st.2.flatMap Expander.found, target w ∧ visited.test w = false
  pending : ∀ w ∈ st.2.flatMap Expander.pending, target w
  todo : ∀ w, target w → st.1.test w = true ∨ w ∈ st.2.flatMap Expander.pending
  once : (st.2.flatMap Expander.found).Nodup

theorem Expanding.step {visited : Bitmap} {target : ℕ → Prop}
    (hroom : ∀ w, target w → w / 64 < visited.length) {s : Bitmap} {before after : List Expander}
    {k : Expander} (h : Expanding visited target (s, before ++ k :: after)) :
    Expanding visited target ((expand.step s k).1, before ++ (expand.step s k).2 :: after) := by
  obtain ⟨pending, found⟩ := k
  cases pending with
  | nil => exact h
  | cons w rest =>
      have htarget : target w := h.pending w (by simp)
      have hlen : w / 64 < s.length := by
        have := h.length
        simp only at this
        rw [this]
        exact hroom w htarget
      have hseen := h.seen
      have hfound := h.found
      have hpending := h.pending
      have htodo := h.todo
      have honce := h.once
      simp only [List.flatMap_append, List.flatMap_cons, List.mem_append] at hseen hfound hpending htodo honce
      cases hw : s.test w with
      | true =>
          have hstep : expand.step s ⟨w :: rest, found⟩ = (s.insert w, ⟨rest, found⟩) := by
            simp [expand, hw]
          have hsame : ∀ x, (s.insert w).test x = true ↔ s.test x = true := by
            intro x
            rw [Bitmap.test_insert hlen]
            constructor
            · rintro (rfl | hx)
              · exact hw
              · exact hx
            · exact Or.inr
          rw [hstep]
          constructor
          · exact Bitmap.length_insert.trans h.length
          · intro x
            simp only [List.flatMap_append, List.flatMap_cons, List.mem_append, hsame]
            exact hseen x
          · simp only [List.flatMap_append, List.flatMap_cons, List.mem_append]
            exact hfound
          · simp only [List.flatMap_append, List.flatMap_cons, List.mem_append]
            intro x hx
            apply hpending
            rw [List.mem_cons]
            tauto
          · intro x hx
            simp only [List.flatMap_append, List.flatMap_cons, List.mem_append, hsame]
            rcases htodo x hx with hseen' | hleft
            · exact Or.inl hseen'
            · rw [List.mem_cons] at hleft
              rcases hleft with hb | (rfl | hr) | ha
              · exact Or.inr (Or.inl hb)
              · exact Or.inl hw
              · exact Or.inr (Or.inr (Or.inl hr))
              · exact Or.inr (Or.inr (Or.inr ha))
          · simp only [List.flatMap_append, List.flatMap_cons]
            exact honce
      | false =>
          have hstep : expand.step s ⟨w :: rest, found⟩ = (s.insert w, ⟨rest, found ++ [w]⟩) := by
            simp [expand, hw]
          have hnew : visited.test w = false ∧ ¬ (w ∈ before.flatMap Expander.found ∨ w ∈ found ∨
              w ∈ after.flatMap Expander.found) := by
            have hnot : ¬ s.test w = true := by simp [hw]
            rw [hseen, not_or] at hnot
            exact ⟨Bool.eq_false_iff.2 hnot.1, hnot.2⟩
          have hperm : (before.flatMap Expander.found ++ (found ++ [w] ++
              after.flatMap Expander.found)).Perm (w :: (before.flatMap Expander.found ++
                (found ++ after.flatMap Expander.found))) := by
            have hmiddle := @List.perm_middle ℕ w (before.flatMap Expander.found ++ found)
              (after.flatMap Expander.found)
            simpa only [List.append_assoc, List.singleton_append] using hmiddle
          rw [hstep]
          constructor
          · exact Bitmap.length_insert.trans h.length
          · intro x
            simp only [List.flatMap_append, List.flatMap_cons, List.mem_append,
              Bitmap.test_insert hlen, hseen, List.mem_singleton]
            tauto
          · simp only [List.flatMap_append, List.flatMap_cons, List.mem_append, List.mem_singleton]
            rintro x (hb | (hf | rfl) | ha)
            · exact hfound x (Or.inl hb)
            · exact hfound x (Or.inr (Or.inl hf))
            · exact ⟨htarget, hnew.1⟩
            · exact hfound x (Or.inr (Or.inr ha))
          · simp only [List.flatMap_append, List.flatMap_cons, List.mem_append]
            intro x hx
            apply hpending
            rw [List.mem_cons]
            tauto
          · intro x hx
            simp only [List.flatMap_append, List.flatMap_cons, List.mem_append,
              Bitmap.test_insert hlen]
            rcases htodo x hx with hseen' | hleft
            · exact Or.inl (Or.inr hseen')
            · rw [List.mem_cons] at hleft
              tauto
          · simp only [List.flatMap_append, List.flatMap_cons]
            rw [hperm.nodup_iff, List.nodup_cons]
            refine ⟨?_, honce⟩
            simpa only [List.mem_append] using hnew.2

theorem flatten_frontierParts (frontier : List ℕ) (threads : ℕ) :
    (frontierParts frontier threads).flatten = frontier := by
  rw [frontierParts]
  split
  case isTrue => simp
  case isFalse h =>
    rw [not_or, not_le, not_lt, minParallelFrontier] at h
    apply flatten_chunks
    rw [ceilDiv]
    apply Nat.div_pos
    · omega
    · omega

/-- A top-down round claims each node once that the frontier leads to. -/
theorem topDownLevel_claims {g : Csr} (hg : g.Sound) {frontier : List ℕ} {visited : Bitmap}
    (hlen : visited.length = (g.nodeCount + 63) / 64) (hfrontier : ∀ v ∈ frontier, v < g.nodeCount)
    (threads : ℕ) (schedule : List ℕ) :
    Claims visited (fun w => ∃ u ∈ frontier, w ∈ g.row u)
        (topDownLevel g frontier visited threads schedule) ∧
      (topDownLevel g frontier visited threads schedule).2.Nodup := by
  obtain ⟨workers, hworkers⟩ : ∃ workers : List Expander, workers =
      (frontierParts frontier threads).map fun part => ⟨part.flatMap g.row, []⟩ := ⟨_, rfl⟩
  have hnone : workers.flatMap Expander.found = [] := by
    rw [hworkers, List.flatMap_map]
    simp
  have hall : workers.flatMap Expander.pending = frontier.flatMap g.row := by
    conv_rhs => rw [← flatten_frontierParts frontier threads]
    rw [hworkers, List.flatMap_map, List.flatMap_def, List.flatMap_def, List.map_flatten,
      List.flatten_flatten, List.map_map]
    rfl
  have hstart : Expanding visited (fun w => ∃ u ∈ frontier, w ∈ g.row u) (visited, workers) := by
    refine ⟨rfl, ?_, ?_, ?_, ?_, ?_⟩
    · simp [hnone]
    · simp [hnone]
    · simp [hall]
    · intro w hw
      right
      rw [hall, List.mem_flatMap]
      exact hw
    · simp [hnone]
  have hroom : ∀ w, (∃ u ∈ frontier, w ∈ g.row u) → w / 64 < visited.length := by
    rintro w ⟨u, hu, hw⟩
    rw [hlen]
    exact Bitmap.div_lt_length (hg u (hfrontier u hu) w hw)
  have hend : Expanding visited (fun w => ∃ u ∈ frontier, w ∈ g.row u)
      (expand.work (visited, workers) schedule) :=
    Worker.work_induction (fun s before k after h => h.step hroom) schedule hstart
  have hdone : (expand.work (visited, workers) schedule).2.flatMap Expander.pending = [] := by
    rw [List.flatMap_eq_nil_iff]
    intro k hk
    exact List.length_eq_zero_iff.1 (Worker.work_done _ _ k hk)
  rw [topDownLevel, ← hworkers]
  refine ⟨⟨hend.length, hend.seen, fun w => ?_⟩, hend.once⟩
  constructor
  · exact hend.found w
  · rintro ⟨htarget, hnew⟩
    rcases hend.todo w htarget with hseen | hleft
    · rcases (hend.seen w).1 hseen with hold | hfound
      · rw [hnew] at hold
        cases hold
      · exact hfound
    · rw [hdone] at hleft
      exact absurd hleft List.not_mem_nil

/-! ### Bottom-up rounds -/

/-- What holds of the threads of a bottom-up round at every step. -/
structure Scanning (visited : Bitmap) (target : ℕ → Prop) (scanned : ℕ → Prop)
    (st : Bitmap × List Scanner) : Prop where
  length : st.1.length = visited.length
  seen : ∀ w, st.1.test w = true ↔ visited.test w = true ∨ w ∈ st.2.flatMap Scanner.found
  found : ∀ w ∈ st.2.flatMap Scanner.found, target w ∧ visited.test w = false
  pending : ∀ w ∈ st.2.flatMap Scanner.pending, scanned w
  todo : ∀ w, scanned w → target w → st.1.test w = true ∨ w ∈ st.2.flatMap Scanner.pending
  armed : ∀ k ∈ st.2, k.armed = true → ∀ w ∈ k.pending.head?, target w ∧ visited.test w = false

theorem Scanning.step {rev : Csr} {bits visited : Bitmap} {target scanned : ℕ → Prop}
    (hhit : ∀ w, scanned w → ((rev.row w).any bits.test = true ↔ target w))
    (hroom : ∀ w, scanned w → w / 64 < visited.length) {s : Bitmap} {before after : List Scanner}
    {k : Scanner} (h : Scanning visited target scanned (s, before ++ k :: after)) :
    Scanning visited target scanned
      (((scan rev bits).step s k).1, before ++ ((scan rev bits).step s k).2 :: after) := by
  obtain ⟨pending, armed, found⟩ := k
  cases pending with
  | nil => exact h
  | cons w rest =>
      have hscanned : scanned w := h.pending w (by simp)
      have hlen : w / 64 < s.length := by
        have := h.length
        simp only at this
        rw [this]
        exact hroom w hscanned
      have hseen := h.seen
      have hfound := h.found
      have hpending := h.pending
      have htodo := h.todo
      have harmed := h.armed
      simp only [List.flatMap_append, List.flatMap_cons, List.mem_append, List.mem_cons] at hseen hfound hpending htodo harmed
      have hothers : ∀ k, (k ∈ before ∨ k ∈ after) → k.armed = true →
          ∀ x ∈ k.pending.head?, target x ∧ visited.test x = false := by
        rintro k (hk | hk)
        · exact harmed k (Or.inl hk)
        · exact harmed k (Or.inr (Or.inr hk))
      -- What is dropped is not waited for: it is visited, or the frontier does not lead to it.
      have hdrop : (target w → s.test w = true) →
          Scanning visited target scanned (s, before ++ ⟨rest, false, found⟩ :: after) := by
        intro hw
        constructor
        · exact h.length
        · simpa only [List.flatMap_append, List.flatMap_cons, List.mem_append] using hseen
        · simpa only [List.flatMap_append, List.flatMap_cons, List.mem_append] using hfound
        · simp only [List.flatMap_append, List.flatMap_cons, List.mem_append]
          intro x hx
          apply hpending
          tauto
        · intro x hx ht
          simp only [List.flatMap_append, List.flatMap_cons, List.mem_append]
          rcases htodo x hx ht with hs | hb | (rfl | hr) | ha
          · exact Or.inl hs
          · exact Or.inr (Or.inl hb)
          · exact Or.inl (hw ht)
          · exact Or.inr (Or.inr (Or.inl hr))
          · exact Or.inr (Or.inr (Or.inr ha))
        · simp only [List.mem_append, List.mem_cons]
          rintro k (hk | rfl | hk) hak
          · exact hothers k (Or.inl hk) hak
          · exact absurd hak Bool.false_ne_true
          · exact hothers k (Or.inr hk) hak
      cases armed with
      | true =>
          have hnew := harmed ⟨w :: rest, true, found⟩ (Or.inr (Or.inl rfl)) rfl w rfl
          have hstep : (scan rev bits).step s ⟨w :: rest, true, found⟩ =
              (s.insert w, ⟨rest, false, found ++ [w]⟩) := rfl
          rw [hstep]
          constructor
          · exact Bitmap.length_insert.trans h.length
          · intro x
            simp only [List.flatMap_append, List.flatMap_cons, List.mem_append,
              Bitmap.test_insert hlen, hseen, List.mem_singleton]
            tauto
          · simp only [List.flatMap_append, List.flatMap_cons, List.mem_append, List.mem_singleton]
            rintro x (hb | (hf | rfl) | ha)
            · exact hfound x (Or.inl hb)
            · exact hfound x (Or.inr (Or.inl hf))
            · exact hnew
            · exact hfound x (Or.inr (Or.inr ha))
          · simp only [List.flatMap_append, List.flatMap_cons, List.mem_append]
            intro x hx
            apply hpending
            tauto
          · intro x hx ht
            simp only [List.flatMap_append, List.flatMap_cons, List.mem_append,
              Bitmap.test_insert hlen]
            have := htodo x hx ht
            tauto
          · simp only [List.mem_append, List.mem_cons]
            rintro k (hk | rfl | hk) hak
            · exact hothers k (Or.inl hk) hak
            · exact absurd hak Bool.false_ne_true
            · exact hothers k (Or.inr hk) hak
      | false =>
          cases hw : s.test w with
          | true =>
              have hstep : (scan rev bits).step s ⟨w :: rest, false, found⟩ =
                  (s, ⟨rest, false, found⟩) := by
                simp [scan, hw]
              rw [hstep]
              exact hdrop fun _ => hw
          | false =>
              cases hany : (rev.row w).any bits.test with
              | false =>
                  have hstep : (scan rev bits).step s ⟨w :: rest, false, found⟩ =
                      (s, ⟨rest, false, found⟩) := by
                    simp only [scan, hw, hany, Bool.false_eq_true, if_false]
                  rw [hstep]
                  refine hdrop fun ht => ?_
                  rw [← hhit w hscanned, hany] at ht
                  cases ht
              | true =>
                  have hstep : (scan rev bits).step s ⟨w :: rest, false, found⟩ =
                      (s, ⟨w :: rest, true, found⟩) := by
                    simp only [scan, hw, hany, Bool.false_eq_true, if_false, if_true]
                  have hnew : target w ∧ visited.test w = false := by
                    refine ⟨(hhit w hscanned).1 hany, ?_⟩
                    rw [Bool.eq_false_iff]
                    intro hold
                    rw [(hseen w).2 (Or.inl hold)] at hw
                    cases hw
                  rw [hstep]
                  constructor
                  · exact h.length
                  · simpa only [List.flatMap_append, List.flatMap_cons, List.mem_append] using hseen
                  · simpa only [List.flatMap_append, List.flatMap_cons, List.mem_append] using hfound
                  · simpa only [List.flatMap_append, List.flatMap_cons, List.mem_append,
                      List.mem_cons] using hpending
                  · simpa only [List.flatMap_append, List.flatMap_cons, List.mem_append,
                      List.mem_cons] using htodo
                  · simp only [List.mem_append, List.mem_cons]
                    rintro k (hk | rfl | hk) hak
                    · exact hothers k (Or.inl hk) hak
                    · intro x hx
                      rw [List.head?_cons, Option.mem_some_iff] at hx
                      rw [← hx]
                      exact hnew
                    · exact hothers k (Or.inr hk) hak

/-! ### The ranges of the threads -/

/-- The nodes a thread scans that starts word-aligned. -/
def scanPer (n threads : ℕ) : ℕ := ceilDiv (ceilDiv n threads) 64 * 64

/-- The end of the last range fits a word of thirty-two bits, where there is more than one. -/
def RangesFit (n threads : ℕ) : Prop :=
  threads ≤ 1 ∨ n < minParallelFrontier ∨ ceilDiv n (scanPer n threads) * scanPer n threads < 2 ^ 32

theorem le_ceilDiv_mul {a b : ℕ} (hb : 0 < b) : a ≤ ceilDiv a b * b := by
  rw [ceilDiv]
  have := Nat.div_add_mod (a + b - 1) b
  have := Nat.mod_lt (a + b - 1) hb
  rw [mul_comm]
  omega

theorem lt_ceilDiv {a b t : ℕ} (hb : 0 < b) : t < ceilDiv a b ↔ t * b < a := by
  rw [ceilDiv, Nat.lt_iff_add_one_le, Nat.le_div_iff_mul_le hb, Nat.add_mul]
  omega

theorem scanRanges_fit {n per : ℕ} (hper : 0 < per) (hfit : ceilDiv n per * per < 2 ^ 32)
    (ts : List ℕ) :
    ∃ parts, scanRanges n per ts = .ok parts ∧ (∀ part ∈ parts, part.2 ≤ n) ∧
      ∀ t ∈ ts, t < 2 ^ 32 → t * per < n → (t * per, min (t * per + per) n) ∈ parts := by
  have hnext : ∀ t, t * per < n → t * per + per ≤ ceilDiv n per * per := by
    intro t ht
    have hlt := (lt_ceilDiv hper).2 ht
    calc t * per + per = (t + 1) * per := by rw [Nat.add_mul, one_mul]
      _ ≤ ceilDiv n per * per := Nat.mul_le_mul_right per hlt
  induction ts with
  | nil => exact ⟨[], rfl, by simp, by simp⟩
  | cons t ts ih =>
      obtain ⟨parts, hparts, hle, hmem⟩ := ih
      rw [scanRanges]
      split
      case isTrue hskip =>
        refine ⟨parts, hparts, hle, fun u hu hu32 hun => ?_⟩
        rcases List.mem_cons.1 hu with rfl | hu
        · rw [Nat.mod_eq_of_lt hu32] at hskip
          have := hnext u hun
          omega
        · exact hmem u hu hu32 hun
      case isFalse hgo =>
        rw [not_or, not_le, not_le] at hgo
        have hword : t % 2 ^ 32 * per + per < 2 ^ 32 := (hnext _ hgo.2).trans_lt hfit
        refine ⟨_, by rw [add32, if_pos hword, hparts]; rfl, ?_, ?_⟩
        · intro part hpart
          rcases List.mem_cons.1 hpart with rfl | hpart
          · exact Nat.min_le_right _ _
          · exact hle part hpart
        · intro u hu hu32 hun
          rcases List.mem_cons.1 hu with rfl | hu
          · rw [Nat.mod_eq_of_lt hu32]
            exact List.mem_cons_self
          · exact List.mem_cons_of_mem _ (hmem u hu hu32 hun)

theorem scanRanges_panics {n per : ℕ} {ts : List ℕ} {t : ℕ} (ht : t ∈ ts) (h32 : t < 2 ^ 32)
    (hlo : t * per < 2 ^ 32) (hn : t * per < n) (hover : 2 ^ 32 ≤ t * per + per) :
    scanRanges n per ts = .error .panicked := by
  induction ts with
  | nil => cases ht
  | cons u ts ih =>
      rw [scanRanges]
      rcases List.mem_cons.1 ht with rfl | ht
      · rw [Nat.mod_eq_of_lt h32, if_neg (by omega), add32, if_neg (by omega)]
        rfl
      · split
        case isTrue => exact ih ht
        case isFalse =>
          rw [add32]
          split
          case isTrue =>
            rw [ih ht]
            rfl
          case isFalse => rfl

theorem scanPer_spec {n threads : ℕ} (ht : 1 < threads) (hn : minParallelFrontier ≤ n)
    (hlt : n < 2 ^ 32) :
    0 < scanPer n threads ∧ scanPer n threads < 2 ^ 32 ∧ n ≤ threads * scanPer n threads := by
  have hper : ceilDiv n threads ≤ scanPer n threads := le_ceilDiv_mul (by decide)
  have hmul : n ≤ ceilDiv n threads * threads := le_ceilDiv_mul (by omega)
  have hmost : ceilDiv n threads ≤ 2 ^ 31 := by
    by_contra hgt
    have hge := (lt_ceilDiv (a := n) (b := threads) (t := 2 ^ 31) (by omega)).1 (by omega)
    have : 2 ^ 31 * 2 ≤ 2 ^ 31 * threads := Nat.mul_le_mul_left _ ht
    omega
  rw [minParallelFrontier] at hn
  refine ⟨?_, ?_, ?_⟩
  · refine lt_of_lt_of_le ?_ hper
    by_contra hzero
    have h0 : ceilDiv n threads = 0 := by omega
    rw [h0] at hmul
    omega
  · rw [scanPer, ceilDiv]
    omega
  · refine hmul.trans ?_
    rw [mul_comm]
    exact Nat.mul_le_mul_left _ hper

theorem scanParts_fit {n threads : ℕ} (hlt : n < 2 ^ 32) (hfit : RangesFit n threads) :
    ∃ parts, scanParts n threads = .ok parts ∧ (∀ part ∈ parts, part.2 ≤ n) ∧
      ∀ w < n, ∃ part ∈ parts, part.1 ≤ w ∧ w < part.2 := by
  rw [scanParts]
  split
  case isTrue => exact ⟨[(0, n)], rfl, by simp, fun w hw => ⟨(0, n), by simp, Nat.zero_le w, hw⟩⟩
  case isFalse hmany =>
    rw [not_or, not_le, not_lt] at hmany
    obtain ⟨hpos, hsmall, hcover⟩ := scanPer_spec hmany.1 hmany.2 hlt
    have hends : ceilDiv n (scanPer n threads) * scanPer n threads < 2 ^ 32 := by
      rcases hfit with h | h | h
      · omega
      · omega
      · exact h
    rw [show ceilDiv (ceilDiv n threads) 64 * 64 = scanPer n threads from rfl,
      Nat.mod_eq_of_lt hsmall]
    obtain ⟨parts, hparts, hle, hmem⟩ := scanRanges_fit hpos hends (List.range threads)
    refine ⟨parts, hparts, hle, fun w hw => ?_⟩
    obtain ⟨t, ht⟩ : ∃ t, t = w / scanPer n threads := ⟨_, rfl⟩
    have hlow : t * scanPer n threads ≤ w := by
      rw [ht]
      exact Nat.div_mul_le_self _ _
    have hhigh : w < t * scanPer n threads + scanPer n threads := by
      rw [ht]
      exact Nat.lt_div_mul_add hpos
    have htmany : t < threads := by
      rw [ht, Nat.div_lt_iff_lt_mul hpos]
      exact hw.trans_le hcover
    have ht32 : t < 2 ^ 32 := (Nat.le_mul_of_pos_right t hpos).trans_lt (hlow.trans_lt (hw.trans hlt))
    refine ⟨_, hmem t (List.mem_range.2 htmany) ht32 (hlow.trans_lt hw), hlow, ?_⟩
    exact lt_min hhigh hw

theorem scanParts_panics {n threads : ℕ} (hlt : n < 2 ^ 32) (hfit : ¬ RangesFit n threads) :
    scanParts n threads = .error .panicked := by
  rw [RangesFit, not_or, not_or, not_le, not_lt, not_lt] at hfit
  obtain ⟨hmany, hn, hover⟩ := hfit
  obtain ⟨hpos, hsmall, hcover⟩ := scanPer_spec hmany hn hlt
  rw [scanParts, if_neg (by omega), show ceilDiv (ceilDiv n threads) 64 * 64 = scanPer n threads from rfl,
    Nat.mod_eq_of_lt hsmall]
  obtain ⟨t, ht⟩ : ∃ t, ceilDiv n (scanPer n threads) = t + 1 := by
    refine Nat.exists_eq_add_one.2 ((lt_ceilDiv hpos).2 ?_)
    rw [zero_mul]
    exact lt_of_lt_of_le (by decide) hn
  have hlast : t * scanPer n threads < n := (lt_ceilDiv hpos).1 (by omega)
  have htmany : t < threads := by
    by_contra hge
    have hle : threads * scanPer n threads ≤ t * scanPer n threads :=
      Nat.mul_le_mul_right _ (not_lt.1 hge)
    omega
  have ht32 : t < 2 ^ 32 := (Nat.le_mul_of_pos_right t hpos).trans_lt (hlast.trans hlt)
  rw [ht, Nat.add_mul, one_mul] at hover
  exact scanRanges_panics (List.mem_range.2 htmany) ht32 (hlast.trans hlt) hlast hover

/-- A bottom-up round claims what the frontier's bits lead to. -/
theorem bottomUpLevel_claims {g rev : Csr} (hrev : rev.Reverses g) (hlt : g.nodeCount < 2 ^ 32)
    {frontier : List ℕ} {bits visited : Bitmap} (hg : g.Sound)
    (hlen : visited.length = (g.nodeCount + 63) / 64)
    (hbits : ∀ v, bits.test v = true ↔ v ∈ frontier) (hfrontier : ∀ v ∈ frontier, v < g.nodeCount)
    {threads : ℕ} (hfit : RangesFit g.nodeCount threads) (schedule : List ℕ) :
    ∃ next, bottomUpLevel rev bits visited threads schedule = .ok next ∧
      Claims visited (fun w => ∃ u ∈ frontier, w ∈ g.row u) next := by
  obtain ⟨parts, hparts, hle, hcover⟩ := scanParts_fit hlt hfit
  obtain ⟨workers, hworkers⟩ : ∃ workers : List Scanner, workers =
      parts.map fun part => ⟨List.range' part.1 (part.2 - part.1), false, []⟩ := ⟨_, rfl⟩
  have hnone : workers.flatMap Scanner.found = [] := by
    rw [hworkers, List.flatMap_map]
    simp
  have hall : ∀ w, w ∈ workers.flatMap Scanner.pending ↔ w < g.nodeCount := by
    intro w
    rw [hworkers, List.flatMap_map]
    simp only [List.mem_flatMap, List.mem_range'_1]
    constructor
    · rintro ⟨part, hpart, hlo, hhi⟩
      have := hle part hpart
      omega
    · intro hw
      obtain ⟨part, hpart, hlo, hhi⟩ := hcover w hw
      exact ⟨part, hpart, hlo, by omega⟩
  have htarget : ∀ w, (∃ u ∈ frontier, w ∈ g.row u) → w < g.nodeCount := by
    rintro w ⟨u, hu, hw⟩
    exact hg u (hfrontier u hu) w hw
  have hhit : ∀ w, w < g.nodeCount →
      ((rev.row w).any bits.test = true ↔ ∃ u ∈ frontier, w ∈ g.row u) := by
    intro w hw
    rw [List.any_eq_true]
    constructor
    · rintro ⟨u, hu, hbit⟩
      exact ⟨u, (hbits u).1 hbit, ((hrev.2 w hw u).1 hu).2⟩
    · rintro ⟨u, hu, hrow⟩
      exact ⟨u, (hrev.2 w hw u).2 ⟨hfrontier u hu, hrow⟩, (hbits u).2 hu⟩
  have hroom : ∀ w, w < g.nodeCount → w / 64 < visited.length := fun w hw => by
    rw [hlen]
    exact Bitmap.div_lt_length hw
  have hstart : Scanning visited (fun w => ∃ u ∈ frontier, w ∈ g.row u) (· < g.nodeCount)
      (visited, workers) := by
    refine ⟨rfl, ?_, ?_, ?_, ?_, ?_⟩
    · simp [hnone]
    · simp [hnone]
    · exact fun w hw => (hall w).1 hw
    · exact fun w hw _ => Or.inr ((hall w).2 hw)
    · rw [hworkers]
      intro k hk harmed
      obtain ⟨part, -, rfl⟩ := List.mem_map.1 hk
      cases harmed
  have hend : Scanning visited (fun w => ∃ u ∈ frontier, w ∈ g.row u) (· < g.nodeCount)
      ((scan rev bits).work (visited, workers) schedule) :=
    Worker.work_induction (fun s before k after h => h.step hhit hroom) schedule hstart
  have hdone : ((scan rev bits).work (visited, workers) schedule).2.flatMap Scanner.pending = [] := by
    rw [List.flatMap_eq_nil_iff]
    intro k hk
    have htodo : 2 * k.pending.length - (if k.armed then 1 else 0) = 0 := Worker.work_done _ _ k hk
    apply List.length_eq_zero_iff.1
    split at htodo
    · omega
    · omega
  rw [bottomUpLevel, hrev.1, hparts, ok_bind, ← hworkers]
  refine ⟨_, rfl, hend.length, hend.seen, fun w => ?_⟩
  constructor
  · exact hend.found w
  · rintro ⟨ht, hnew⟩
    rcases hend.todo w (htarget w ht) ht with hseen | hleft
    · rcases (hend.seen w).1 hseen with hold | hfound
      · rw [hnew] at hold
        cases hold
      · exact hfound
    · rw [hdone] at hleft
      exact absurd hleft List.not_mem_nil

/-! ### The fixpoint -/

theorem foldl_insert_spec {n : ℕ} {frontier : List ℕ} (h : ∀ v ∈ frontier, v < n) {bits : Bitmap}
    (hlen : bits.length = (n + 63) / 64) (w : ℕ) :
    (frontier.foldl Bitmap.insert bits).test w = true ↔ bits.test w = true ∨ w ∈ frontier := by
  induction frontier generalizing bits with
  | nil => simp
  | cons v frontier ih =>
      have hv : v / 64 < bits.length := by
        rw [hlen]
        exact Bitmap.div_lt_length (h v List.mem_cons_self)
      rw [List.foldl_cons, ih (fun u hu => h u (List.mem_cons_of_mem v hu))
        (Bitmap.length_insert.trans hlen), Bitmap.test_insert hv, List.mem_cons]
      tauto

theorem getElem?_foldl_set (next : List ℕ) (levels : List ℕ) (d w : ℕ) (hw : w < levels.length) :
    (next.foldl (fun levels v => levels.set v d) levels)[w]? =
      if w ∈ next then some d else levels[w]? := by
  induction next generalizing levels with
  | nil => simp
  | cons v next ih =>
      rw [List.foldl_cons, ih (levels.set v d) (by simpa using hw), List.getElem?_set]
      by_cases hv : v = w
      · simp [hv, hw]
      · have hne : ¬ w = v := fun heq => hv heq.symm
        simp [hv, hne]

theorem length_foldl_set (next : List ℕ) (levels : List ℕ) (d : ℕ) :
    (next.foldl (fun levels v => levels.set v d) levels).length = levels.length := by
  induction next generalizing levels with
  | nil => rfl
  | cons v next ih => rw [List.foldl_cons, ih, List.length_set]

variable {g : Csr} {sources : List ℕ}

theorem level_lt_of_sound (hg : g.Sound) {start : ℕ → Prop} (hs : ∀ s, start s → s < g.nodeCount)
    {d w : ℕ} (h : Level g.Adj start d w) : w < g.nodeCount := by
  cases d with
  | zero => exact hs w (level_zero.1 h)
  | succ d =>
      obtain ⟨⟨u, -, hu, hrow⟩, -⟩ := level_succ.1 h
      exact hg u hu w hrow

theorem level_lt_nodeCount (hg : g.Sound) (hs : ∀ s ∈ sources, s < g.nodeCount) {d w : ℕ}
    (h : Level g.Adj (· ∈ sources) d w) : w < g.nodeCount := level_lt_of_sound hg hs h

/-- A search after `d` rounds: the bits of what is reached within them, the nodes of the last
level, and the levels given so far. -/
structure Searched (g : Csr) (sources : List ℕ) (d : ℕ) (st : Bfs) : Prop where
  words : st.visited.length = (g.nodeCount + 63) / 64
  visited : ∀ w, st.visited.test w = true ↔ Within g.Adj (· ∈ sources) d w
  frontier : ∀ w, w ∈ st.frontier ↔ Level g.Adj (· ∈ sources) d w
  length : st.levels.length = g.nodeCount
  levels : ∀ w < g.nodeCount, ∀ e ≤ d, Level g.Adj (· ∈ sources) e w → st.levels[w]? = some e
  unreached : ∀ w < g.nodeCount, ¬ Within g.Adj (· ∈ sources) d w →
    st.levels[w]? = some unreached

/-- The levels of a search: the fewest hops where they are within the bound. -/
def LevelsRight (g : Csr) (sources : List ℕ) (maxHops : ℕ) (levels : List ℕ) : Prop :=
  levels.length = g.nodeCount ∧ ∀ w < g.nodeCount,
    (∀ e ≤ maxHops, Level g.Adj (· ∈ sources) e w → levels[w]? = some e) ∧
      (¬ Within g.Adj (· ∈ sources) maxHops w → levels[w]? = some unreached)

theorem Searched.next (hg : g.Sound) (hs : ∀ s ∈ sources, s < g.nodeCount) {d : ℕ} {st : Bfs}
    (h : Searched g sources d st) {next : Bitmap × List ℕ}
    (hnext : Claims st.visited (fun w => ∃ u ∈ st.frontier, w ∈ g.row u) next) :
    Searched g sources (d + 1) ⟨next.1,
      next.2.foldl (fun levels w => levels.set w (d + 1)) st.levels, next.2⟩ := by
  have hlevel : ∀ w, w ∈ next.2 ↔ Level g.Adj (· ∈ sources) (d + 1) w := by
    intro w
    rw [hnext.found, level_succ, ← h.visited, Bool.not_eq_true]
    apply and_congr_left
    intro _
    constructor
    · rintro ⟨u, hu, hrow⟩
      have hlevel := (h.frontier u).1 hu
      exact ⟨u, hlevel, level_lt_nodeCount hg hs hlevel, hrow⟩
    · rintro ⟨u, hu, -, hrow⟩
      exact ⟨u, (h.frontier u).2 hu, hrow⟩
  have hget : ∀ w < g.nodeCount, (next.2.foldl (fun levels v => levels.set v (d + 1)) st.levels)[w]? =
      if w ∈ next.2 then some (d + 1) else st.levels[w]? := fun w hw =>
    getElem?_foldl_set next.2 st.levels (d + 1) w (by rwa [h.length])
  refine ⟨hnext.length.trans h.words, ?_, hlevel, ?_, ?_, ?_⟩
  · intro w
    rw [hnext.seen, h.visited, hlevel, within_succ]
  · exact (length_foldl_set _ _ _).trans h.length
  · intro w hw e he hlev
    rw [hget w hw]
    by_cases hin : w ∈ next.2
    · rw [if_pos hin, level_unique hlev ((hlevel w).1 hin)]
    · rw [if_neg hin]
      refine h.levels w hw e ?_ hlev
      rcases Nat.lt_or_ge d e with hlt | hle
      · obtain rfl : e = d + 1 := Nat.le_antisymm he hlt
        exact absurd ((hlevel w).2 hlev) hin
      · exact hle
  · intro w hw hnone
    rw [within_succ, not_or] at hnone
    rw [hget w hw, if_neg fun hin => hnone.2 ((hlevel w).1 hin)]
    exact h.unreached w hw hnone.1

/-- Where the last level is empty, or the bound is reached, the levels are right. -/
theorem Searched.right {d maxHops : ℕ} {st : Bfs} (h : Searched g sources d st)
    (hd : d ≤ maxHops) (hstop : st.frontier = [] ∨ d = maxHops) :
    LevelsRight g sources maxHops st.levels := by
  have hall : ∀ w, Within g.Adj (· ∈ sources) maxHops w → Within g.Adj (· ∈ sources) d w := by
    rcases hstop with hempty | rfl
    · intro w
      apply within_of_empty
      intro u hu
      rw [← h.frontier, hempty] at hu
      exact absurd hu List.not_mem_nil
    · exact fun w hw => hw
  refine ⟨h.length, fun w hw => ⟨fun e he hlev => ?_, fun hnone => ?_⟩⟩
  · obtain ⟨e', he', hlev'⟩ := within_iff_level.1 (hall w ⟨e, he, hlev.1⟩)
    obtain rfl : e = e' := level_unique hlev hlev'
    exact h.levels w hw e he' hlev
  · refine h.unreached w hw fun hwithin => hnone ?_
    obtain ⟨e, he, hops⟩ := hwithin
    exact ⟨e, he.trans hd, hops⟩

/-- A search that has claimed its first sources, each once. -/
structure Started (g : Csr) (seen : List ℕ) (st : Bfs) : Prop where
  words : st.visited.length = (g.nodeCount + 63) / 64
  visited : ∀ w, st.visited.test w = true ↔ w ∈ seen
  frontier : ∀ w, w ∈ st.frontier ↔ w ∈ seen
  once : st.frontier.Nodup
  length : st.levels.length = g.nodeCount
  levels : ∀ w < g.nodeCount, st.levels[w]? = if w ∈ seen then some 0 else some unreached

theorem Started.claim {seen : List ℕ} {st : Bfs} (h : Started g seen st) {s : ℕ}
    (hs : s < g.nodeCount) : Started g (seen ++ [s]) (st.claimSource s) := by
  have hroom : s / 64 < st.visited.length := by
    rw [h.words]
    exact Bitmap.div_lt_length hs
  have hvisited : ∀ w, (st.claimSource s).visited.test w = true ↔ w ∈ seen ++ [s] := by
    intro w
    rw [Bfs.claimSource, Bitmap.test_insert hroom, h.visited, List.mem_append,
      List.mem_singleton, or_comm]
  cases hin : st.visited.test s with
  | true =>
      have hmem : ∀ w, w ∈ seen ++ [s] ↔ w ∈ seen := by
        intro w
        rw [List.mem_append, List.mem_singleton]
        constructor
        · rintro (hw | rfl)
          · exact hw
          · exact (h.visited w).1 hin
        · exact Or.inl
      refine ⟨Bitmap.length_insert.trans h.words, hvisited, ?_, ?_, ?_, ?_⟩
      · simp only [Bfs.claimSource, hin, if_true, hmem]
        exact h.frontier
      · simp only [Bfs.claimSource, hin, if_true]
        exact h.once
      · simp only [Bfs.claimSource, hin, if_true]
        exact h.length
      · simp only [Bfs.claimSource, hin, if_true, hmem]
        exact h.levels
  | false =>
      have hnew : s ∉ st.frontier := by
        rw [h.frontier, ← h.visited, hin]
        exact Bool.false_ne_true
      refine ⟨Bitmap.length_insert.trans h.words, hvisited, ?_, ?_, ?_, ?_⟩
      · intro w
        simp only [Bfs.claimSource, hin, Bool.false_eq_true, if_false, List.mem_append]
        rw [h.frontier]
      · simp only [Bfs.claimSource, hin, Bool.false_eq_true, if_false]
        rw [List.nodup_append]
        refine ⟨h.once, List.nodup_singleton s, fun a ha b hb => ?_⟩
        rw [List.mem_singleton] at hb
        rintro rfl
        exact hnew (hb ▸ ha)
      · simp only [Bfs.claimSource, hin, Bool.false_eq_true, if_false]
        rw [List.length_set, h.length]
      · intro w hw
        simp only [Bfs.claimSource, hin, Bool.false_eq_true, if_false]
        by_cases hws : w = s
        · rw [hws, List.getElem?_set_self (by rwa [h.length]), if_pos (by simp)]
        · have hne : ¬ s = w := fun heq => hws heq.symm
          have hmem : w ∈ seen ++ [s] ↔ w ∈ seen := by simp [hws]
          rw [List.getElem?_set_ne hne, h.levels w hw]
          simp only [hmem]

theorem Started.claims {seen : List ℕ} {st : Bfs} (h : Started g seen st) {rest : List ℕ}
    (hrest : ∀ s ∈ rest, s < g.nodeCount) :
    Started g (seen ++ rest) (rest.foldl Bfs.claimSource st) := by
  induction rest generalizing seen st with
  | nil =>
      rw [List.append_nil]
      exact h
  | cons s rest ih =>
      have hnext := ih (h.claim (hrest s List.mem_cons_self)) fun u hu =>
        hrest u (List.mem_cons_of_mem s hu)
      rw [List.append_assoc] at hnext
      exact hnext

theorem started_empty : Started g [] ⟨Bitmap.empty g.nodeCount,
    List.replicate g.nodeCount unreached, []⟩ := by
  refine ⟨Bitmap.length_empty _, ?_, by simp, List.nodup_nil, by simp, ?_⟩
  · simp [Bitmap.test_empty]
  · intro w hw
    simp [hw]

/-- Before its first round a search has claimed its sources, each once. -/
theorem start_searched (hs : ∀ s ∈ sources, s < g.nodeCount) :
    Searched g sources 0 (Bfs.start g.nodeCount sources) ∧
      (Bfs.start g.nodeCount sources).frontier.Nodup := by
  have h : Started g sources (Bfs.start g.nodeCount sources) := started_empty.claims hs
  have hzero : ∀ w, Within g.Adj (· ∈ sources) 0 w ↔ w ∈ sources := by
    intro w
    rw [within_iff_level]
    constructor
    · rintro ⟨e, he, hlev⟩
      obtain rfl : e = 0 := Nat.le_zero.1 he
      exact level_zero.1 hlev
    · exact fun hw => ⟨0, le_rfl, level_zero.2 hw⟩
  refine ⟨⟨h.words, ?_, ?_, h.length, ?_, ?_⟩, h.once⟩
  · exact fun w => (h.visited w).trans (hzero w).symm
  · exact fun w => (h.frontier w).trans level_zero.symm
  · intro w hw e he hlev
    obtain rfl : e = 0 := Nat.le_zero.1 he
    rw [h.levels w hw, if_pos (level_zero.1 hlev)]
  · intro w hw hnone
    rw [hzero] at hnone
    rw [h.levels w hw, if_neg hnone]

/-- No round is dense whose ranges do not fit. -/
def RoundsFit (g : Csr) (rev : Option Csr) (sources : List ℕ) (maxHops threads : ℕ) : Prop :=
  rev = none ∨ RangesFit g.nodeCount threads ∨
    ∀ d < maxHops, Set.ncard {w | Level g.Adj (· ∈ sources) d w} ≤ g.nodeCount / denseFraction

/-- A frontier that lists its level once is as long as the level. -/
theorem Searched.ncard {d : ℕ} {st : Bfs} (h : Searched g sources d st) (honce : st.frontier.Nodup) :
    Set.ncard {w | Level g.Adj (· ∈ sources) d w} = st.frontier.length := by
  have hset : {w | Level g.Adj (· ∈ sources) d w} = ↑st.frontier.toFinset := by
    ext w
    rw [Set.mem_ofPred_eq, Finset.mem_coe, List.mem_toFinset, h.frontier]
  rw [hset, Set.ncard_coe_finset, List.toFinset_card_of_nodup honce]

/-- A top-down round claims the next level, once. -/
theorem Searched.topDown (hg : g.Sound) (hs : ∀ s ∈ sources, s < g.nodeCount) {d : ℕ} {st : Bfs}
    (h : Searched g sources d st) (threads : ℕ) (schedule : List ℕ) :
    Claims st.visited (fun w => ∃ u ∈ st.frontier, w ∈ g.row u)
        (topDownLevel g st.frontier st.visited threads schedule) ∧
      (topDownLevel g st.frontier st.visited threads schedule).2.Nodup :=
  topDownLevel_claims hg h.words
    (fun v hv => level_lt_nodeCount hg hs ((h.frontier v).1 hv)) threads schedule

variable {rev : Option Csr} {maxHops threads : ℕ}

theorem Searched.nextLevel (hg : g.Sound) (hlt : g.nodeCount < 2 ^ 32)
    (hs : ∀ s ∈ sources, s < g.nodeCount) (hrev : ∀ r, rev = some r → r.Reverses g) {d : ℕ} {st : Bfs}
    (h : Searched g sources d st)
    (hfit : rev = none ∨ RangesFit g.nodeCount threads ∨
      st.frontier.length ≤ g.nodeCount / denseFraction) (schedule : List ℕ) :
    ∃ next, nextLevel g rev threads schedule st = .ok next ∧
      Claims st.visited (fun w => ∃ u ∈ st.frontier, w ∈ g.row u) next ∧
        ((rev = none ∨ st.frontier.length ≤ g.nodeCount / denseFraction) → next.2.Nodup) := by
  obtain ⟨hdown, honce⟩ := h.topDown hg hs threads schedule
  have hfrontier : ∀ v ∈ st.frontier, v < g.nodeCount := fun v hv =>
    level_lt_nodeCount hg hs ((h.frontier v).1 hv)
  cases hr : rev with
  | none => exact ⟨_, rfl, hdown, fun _ => honce⟩
  | some r =>
      rw [Query.nextLevel]
      split
      case isFalse => exact ⟨_, rfl, hdown, fun _ => honce⟩
      case isTrue hdense =>
        have hranges : RangesFit g.nodeCount threads := by
          rcases hfit with hnone | hranges | hsparse
          · rw [hr] at hnone
            cases hnone
          · exact hranges
          · omega
        have hbits : ∀ v, (st.frontier.foldl Bitmap.insert (Bitmap.empty g.nodeCount)).test v = true ↔
            v ∈ st.frontier := by
          intro v
          rw [foldl_insert_spec hfrontier (Bitmap.length_empty _), Bitmap.test_empty]
          simp
        obtain ⟨next, hnext, hclaims⟩ := bottomUpLevel_claims (hrev r hr) hlt hg h.words hbits
          hfrontier hranges schedule
        refine ⟨next, hnext, hclaims, ?_⟩
        rintro (hnone | hsparse)
        · cases hnone
        · omega

/-- Where every dense round fits the search ends with the right levels. -/
theorem rounds_right (hg : g.Sound) (hlt : g.nodeCount < 2 ^ 32)
    (hs : ∀ s ∈ sources, s < g.nodeCount) (hrev : ∀ r, rev = some r → r.Reverses g)
    (hfit : RoundsFit g rev sources maxHops threads) (schedules : ℕ → List ℕ) (left : ℕ) :
    ∀ {d : ℕ} {st : Bfs}, Searched g sources d st →
      (rev = none ∨ RangesFit g.nodeCount threads ∨ st.frontier.Nodup) → d + left = maxHops →
        ∃ st', rounds g rev threads schedules left d st = .ok st' ∧
          LevelsRight g sources maxHops st'.levels := by
  induction left with
  | zero =>
      intro d st h _ hd
      exact ⟨st, rfl, h.right hd.le (Or.inr hd)⟩
  | succ left ih =>
      intro d st h honce hd
      rw [rounds]
      split
      case isTrue hempty => exact ⟨st, rfl, h.right (by omega) (Or.inl hempty)⟩
      case isFalse =>
        have hround : rev = none ∨ RangesFit g.nodeCount threads ∨
            (st.frontier.Nodup ∧ st.frontier.length ≤ g.nodeCount / denseFraction) := by
          rcases hfit with hnone | hranges | hsparse
          · exact Or.inl hnone
          · exact Or.inr (Or.inl hranges)
          · rcases honce with hnone | hranges | honce
            · exact Or.inl hnone
            · exact Or.inr (Or.inl hranges)
            · right
              right
              refine ⟨honce, ?_⟩
              rw [← h.ncard honce]
              exact hsparse d (by omega)
        obtain ⟨next, hnext, hclaims, hnodup⟩ := h.nextLevel hg hlt hs hrev
          (hround.imp_right fun hr => hr.imp_right And.right) (schedules d)
        rw [hnext, ok_bind]
        refine ih (h.next hg hs hclaims) ?_ (by omega)
        rcases hround with hnone | hranges | hsparse
        · exact Or.inl hnone
        · exact Or.inr (Or.inl hranges)
        · exact Or.inr (Or.inr (hnodup (Or.inr hsparse.2)))

/-- A dense round whose ranges do not fit is a panic: the rounds before it were top-down. -/
theorem rounds_panics (hg : g.Sound) (hlt : g.nodeCount < 2 ^ 32)
    (hs : ∀ s ∈ sources, s < g.nodeCount) {r : Csr} (hrev : r.Reverses g)
    (hranges : ¬ RangesFit g.nodeCount threads) {dense : ℕ}
    (hdense : g.nodeCount / denseFraction < Set.ncard {w | Level g.Adj (· ∈ sources) dense w})
    (schedules : ℕ → List ℕ) (left : ℕ) :
    ∀ {d : ℕ} {st : Bfs}, Searched g sources d st → st.frontier.Nodup → d ≤ dense →
      dense < d + left → rounds g (some r) threads schedules left d st = .error .panicked := by
  induction left with
  | zero =>
      intro d st _ _ hle hgt
      omega
  | succ left ih =>
      intro d st h honce hle hgt
      obtain ⟨u, hu⟩ : ∃ u, Level g.Adj (· ∈ sources) dense u := by
        by_contra hnone
        rw [not_exists] at hnone
        simp [hnone] at hdense
      obtain ⟨v, hv⟩ := exists_level hu d hle
      have hne : st.frontier ≠ [] := List.ne_nil_of_mem ((h.frontier v).2 hv)
      rw [rounds, if_neg hne]
      by_cases hlong : g.nodeCount / denseFraction < st.frontier.length
      · have hpanic : Query.nextLevel g (some r) threads (schedules d) st = .error .panicked := by
          rw [Query.nextLevel, if_pos hlong, bottomUpLevel, hrev.1, scanParts_panics hlt hranges]
          rfl
        rw [hpanic]
        rfl
      · have hlater : d ≠ dense := by
          rintro rfl
          rw [h.ncard honce] at hdense
          exact hlong hdense
        obtain ⟨hdown, hnodup⟩ := h.topDown hg hs threads (schedules d)
        have hnext : Query.nextLevel g (some r) threads (schedules d) st =
            .ok (topDownLevel g st.frontier st.visited threads (schedules d)) := by
          rw [Query.nextLevel, if_neg hlong]
        rw [hnext, ok_bind]
        exact ih (h.next hg hs hdown) hnodup (by omega) (by omega)

/-- Where every dense round has room, a search gives the right levels, whatever the order of
its threads. -/
theorem recursiveBfs_right (hg : g.Sound) (hlt : g.nodeCount < 2 ^ 32)
    (hs : ∀ s ∈ sources, s < g.nodeCount) (hrev : ∀ r, rev = some r → r.Reverses g) {detected : ℕ}
    (hfit : RoundsFit g rev sources maxHops (effectiveThreads detected threads))
    (schedules : ℕ → List ℕ) :
    ∃ levels, recursiveBfs g rev sources maxHops threads detected schedules = .ok levels ∧
      LevelsRight g sources maxHops levels := by
  obtain ⟨hstart, honce⟩ := start_searched (g := g) hs
  obtain ⟨st, hst, hright⟩ := rounds_right hg hlt hs hrev hfit schedules maxHops hstart
    (Or.inr (Or.inr honce)) (Nat.zero_add maxHops)
  refine ⟨st.levels, ?_, hright⟩
  rw [recursiveBfs, hst]
  rfl

theorem recursiveBfs_panics (hg : g.Sound) (hlt : g.nodeCount < 2 ^ 32)
    (hs : ∀ s ∈ sources, s < g.nodeCount) (hrev : ∀ r, rev = some r → r.Reverses g) {detected : ℕ}
    (hfit : ¬ RoundsFit g rev sources maxHops (effectiveThreads detected threads))
    (schedules : ℕ → List ℕ) :
    recursiveBfs g rev sources maxHops threads detected schedules = .error .panicked := by
  obtain ⟨hstart, honce⟩ := start_searched (g := g) hs
  rw [RoundsFit, not_or, not_or] at hfit
  obtain ⟨hsome, hranges, hdense⟩ := hfit
  obtain ⟨r, hr⟩ := Option.ne_none_iff_exists'.1 hsome
  obtain ⟨d, hd⟩ := not_forall.1 hdense
  rw [Classical.not_imp, not_le] at hd
  rw [recursiveBfs, hr, rounds_panics hg hlt hs (hrev r hr) hranges hd.2 schedules maxHops hstart
    honce (Nat.zero_le d) (by omega)]
  rfl

end Zu.Query
