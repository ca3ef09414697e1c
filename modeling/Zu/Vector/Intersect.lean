import Zu.Vector.Setops

/-!
# Sorted intersection is set intersection

Each lane of a merge keeps what it has found in its own stretch of the output, and what it has
not found is in what it has left to read. The stretches are disjoint, so no lane overwrites
what another found.
-/

namespace Zu.Vector

open Lib Checked

/-! ### Parts of a list -/

theorem drop_take_cons {l : List ℕ} {i stop x : ℕ} (h : i < stop) (hx : l[i]? = some x) :
    (l.take stop).drop i = x :: (l.take stop).drop (i + 1) := by
  have hget : (l.take stop)[i]? = some x := by rw [List.getElem?_take_of_lt h, hx]
  obtain ⟨hi, hval⟩ := List.getElem?_eq_some_iff.1 hget
  rw [List.drop_eq_getElem_cons hi, hval]

/-- A stretch of the output is the same where all of it from some place on is. -/
theorem drop_take_congr {out out' : List ℕ} {lo off n : ℕ} (h : out'.drop lo = out.drop lo)
    (hlo : lo ≤ off) : (out'.take n).drop off = (out.take n).drop off := by
  obtain ⟨k, rfl⟩ := Nat.exists_eq_add_of_le hlo
  rw [← List.drop_drop, ← List.drop_drop, List.drop_take (i := lo), List.drop_take (i := lo), h]

theorem take_congr {out out' : List ℕ} {n stop : ℕ} (h : out'.take stop = out.take stop)
    (hn : n ≤ stop) : out'.take n = out.take n := by
  have hcut := congrArg (List.take n) h
  rwa [List.take_take, List.take_take, Nat.min_eq_left hn] at hcut

theorem take_set_self {out : List ℕ} {n x : ℕ} (h : n < out.length) :
    (out.set n x).take (n + 1) = out.take n ++ [x] := by
  rw [List.take_add_one, List.take_set_of_le (Nat.le_refl n), List.getElem?_set_self h]
  rfl

theorem index_drop_take {l : List ℕ} {i stop : ℕ} (h : i < stop) (hstop : stop ≤ l.length) :
    ∃ x, l[i]? = some x ∧ (index l i : Kernel ℕ) = .ok x ∧
      (l.take stop).drop i = x :: (l.take stop).drop (i + 1) := by
  have hx := List.getElem?_eq_getElem (h.trans_le hstop)
  exact ⟨_, hx, index_of_getElem? hx, drop_take_cons h hx⟩

theorem pairwise_part {l : List ℕ} (h : l.Pairwise (· < ·)) (i stop : ℕ) :
    ((l.take stop).drop i).Pairwise (· < ·) :=
  h.sublist ((List.drop_sublist _ _).trans (List.take_sublist _ _))

/-! ### One lane -/

namespace Lane

def left (a : List ℕ) (l : Lane) : List ℕ := (a.take l.iEnd).drop l.i

def right (b : List ℕ) (l : Lane) : List ℕ := (b.take l.jEnd).drop l.j

/-- What a lane has found is in its stretch of the output, before `stop`, and the rest of
`target` is in what it has left to read. -/
structure Holds (a b out target : List ℕ) (stop : ℕ) (l : Lane) : Prop where
  short_le : l.i ≤ l.iEnd
  short_end : l.iEnd ≤ a.length
  long_le : l.j ≤ l.jEnd
  long_end : l.jEnd ≤ b.length
  off_le : l.off ≤ l.n
  room : l.n + min (l.iEnd - l.i) (l.jEnd - l.j) ≤ stop
  stop_le : stop ≤ out.length
  target_eq : target = (out.take l.n).drop l.off ++ overlap (l.left a) (l.right b)

variable {a b out target : List ℕ} {stop : ℕ} {l : Lane}

theorem active_iff : l.active = true ↔ l.i < l.iEnd ∧ l.j < l.jEnd := by
  simp [active]

theorem length_left (h : l.Holds a b out target stop) : (l.left a).length = l.iEnd - l.i := by
  rw [left, List.length_drop, List.length_take, Nat.min_eq_left h.short_end]

theorem length_right (h : l.Holds a b out target stop) : (l.right b).length = l.jEnd - l.j := by
  rw [right, List.length_drop, List.length_take, Nat.min_eq_left h.long_end]

theorem Holds.n_le (h : l.Holds a b out target stop) : l.n ≤ stop :=
  (Nat.le_add_right _ _).trans h.room

theorem Holds.n_lt (h : l.Holds a b out target stop) (hactive : l.active = true) : l.n < stop := by
  have hroom := h.room
  obtain ⟨hi, hj⟩ := active_iff.1 hactive
  omega

theorem Holds.congr {out' : List ℕ} (h : l.Holds a b out target stop)
    (hlen : out'.length = out.length)
    (hsame : (out'.take l.n).drop l.off = (out.take l.n).drop l.off) :
    l.Holds a b out' target stop where
  short_le := h.short_le
  short_end := h.short_end
  long_le := h.long_le
  long_end := h.long_end
  off_le := h.off_le
  room := h.room
  stop_le := h.stop_le.trans_eq hlen.symm
  target_eq := by rw [hsame, h.target_eq]

/-- How many more steps a lane can make. -/
def steps (l : Lane) : ℕ := (l.iEnd - l.i) + (l.jEnd - l.j)

theorem Holds.step (ha : a.Pairwise (· < ·)) (hb : b.Pairwise (· < ·))
    (h : l.Holds a b out target stop) (hactive : l.active = true) :
    ∃ x y, l.step a b out = .ok (out.set l.n x, l.next x y) ∧
      (l.next x y).Holds a b (out.set l.n x) target stop ∧ (l.next x y).steps < l.steps := by
  obtain ⟨hi, hj⟩ := active_iff.1 hactive
  have hn := h.n_lt hactive
  have hlen := hn.trans_le h.stop_le
  obtain ⟨x, -, hx, hleft⟩ := index_drop_take hi h.short_end
  obtain ⟨y, -, hy, hright⟩ := index_drop_take hj h.long_end
  have hleft_sorted := pairwise_part ha l.i l.iEnd
  have hright_sorted := pairwise_part hb l.j l.jEnd
  rw [hleft] at hleft_sorted
  rw [hright] at hright_sorted
  have hstep : l.step a b out = .ok (out.set l.n x, l.next x y) := by
    rw [Lane.step, hx, hy]
    show (put out l.n x >>= fun out => _) = _
    rw [put, if_pos hlen]
    rfl
  have htarget := h.target_eq
  rw [left, right, hleft, hright] at htarget
  have hroom := h.room
  have hold : ((out.set l.n x).take l.n).drop l.off = (out.take l.n).drop l.off := by
    rw [List.take_set_of_le (Nat.le_refl _)]
  refine ⟨x, y, hstep, ?_, ?_⟩
  · rcases lt_trichotomy x y with hxy | rfl | hxy
    · have hnext : l.next x y = { l with i := l.i + 1 } := by
        simp [next, hxy.ne, hxy.le, hxy.not_ge]
      rw [hnext]
      rw [overlap_cons_lt hxy hright_sorted] at htarget
      refine ⟨hi, h.short_end, h.long_le, h.long_end, h.off_le, ?_, ?_, ?_⟩
      · show l.n + min (l.iEnd - (l.i + 1)) (l.jEnd - l.j) ≤ stop
        omega
      · rw [List.length_set]
        exact h.stop_le
      · rw [htarget, hold, left, right, hright]
    · have hnext : l.next x x = { l with n := l.n + 1, i := l.i + 1, j := l.j + 1 } := by
        simp [next]
      rw [hnext]
      rw [overlap_cons_eq hleft_sorted] at htarget
      refine ⟨hi, h.short_end, hj, h.long_end, h.off_le.trans (Nat.le_succ _), ?_, ?_, ?_⟩
      · show l.n + 1 + min (l.iEnd - (l.i + 1)) (l.jEnd - (l.j + 1)) ≤ stop
        omega
      · rw [List.length_set]
        exact h.stop_le
      · show target = ((out.set l.n x).take (l.n + 1)).drop l.off ++ _
        have hoff : l.off ≤ (out.take l.n).length := by
          rw [List.length_take, Nat.min_eq_left hlen.le]
          exact h.off_le
        rw [htarget, take_set_self hlen, List.drop_append_of_le_length hoff, List.append_assoc]
        rfl
    · have hnext : l.next x y = { l with j := l.j + 1 } := by
        simp [next, hxy.ne', hxy.le, hxy.not_ge]
      rw [hnext]
      rw [overlap_cons_gt hxy hleft_sorted] at htarget
      refine ⟨h.short_le, h.short_end, hj, h.long_end, h.off_le, ?_, ?_, ?_⟩
      · show l.n + min (l.iEnd - l.i) (l.jEnd - (l.j + 1)) ≤ stop
        omega
      · rw [List.length_set]
        exact h.stop_le
      · rw [htarget, hold, left, right, hleft]
  · rcases lt_trichotomy x y with hxy | rfl | hxy
    · simp only [steps, next, hxy.ne, hxy.le, hxy.not_ge, decide_true, decide_false,
        Bool.toNat_true, Bool.toNat_false]
      omega
    · simp only [steps, next, le_refl, decide_true, Bool.toNat_true]
      omega
    · simp only [steps, next, hxy.ne', hxy.le, hxy.not_ge, decide_true, decide_false,
        Bool.toNat_true, Bool.toNat_false]
      omega

theorem off_next (x y : ℕ) (l : Lane) : (l.next x y).off = l.off := rfl

end Lane

/-- A merge leaves the common elements at the front of its output. -/
theorem mergeLoop_exact {a b : List ℕ} (ha : a.Pairwise (· < ·)) (hb : b.Pairwise (· < ·))
    {turns stop : ℕ} {out target : List ℕ} {l : Lane} (h : l.Holds a b out target stop)
    (hturns : l.steps ≤ turns) :
    ∃ out' l', mergeLoop a b turns out l = .ok (out', l') ∧ l'.off = l.off ∧
      out'.length = out.length ∧ l'.n ≤ stop ∧ (out'.take l'.n).drop l'.off = target := by
  have hdone : ∀ {out : List ℕ} {l : Lane}, l.Holds a b out target stop → l.active = false →
      (out.take l.n).drop l.off = target := by
    intro out l h hidle
    have hempty : overlap (l.left a) (l.right b) = [] := by
      have hlen := length_overlap_le (b := l.right b) (pairwise_part ha l.i l.iEnd)
      rw [List.length_drop, List.length_take, Nat.min_eq_left h.short_end, Lane.length_right h] at hlen
      apply List.eq_nil_of_length_eq_zero
      have hidle' : ¬ (l.i < l.iEnd ∧ l.j < l.jEnd) := by
        rw [← Lane.active_iff, hidle]
        exact Bool.false_ne_true
      show (overlap ((a.take l.iEnd).drop l.i) (l.right b)).length = 0
      omega
    rw [h.target_eq, hempty, List.append_nil]
  induction turns generalizing out l with
  | zero =>
      have hidle : l.active = false := by
        rw [← Bool.not_eq_true, Lane.active_iff]
        rw [Lane.steps] at hturns
        omega
      rw [mergeLoop, hidle, if_neg Bool.false_ne_true]
      exact ⟨out, l, rfl, rfl, rfl, h.n_le, hdone h hidle⟩
  | succ turns ih =>
      rw [mergeLoop]
      by_cases hactive : l.active = true
      · obtain ⟨x, y, hstep, hnext, hless⟩ := h.step ha hb hactive
        obtain ⟨out', l', hloop, hoff, hlen, hn, htarget⟩ := ih hnext (by omega)
        rw [if_pos hactive, hstep]
        refine ⟨out', l', hloop, hoff, hlen.trans List.length_set, hn, htarget⟩
      · rw [if_neg hactive]
        exact ⟨out, l, rfl, rfl, rfl, h.n_le, hdone h (Bool.eq_false_iff.2 hactive)⟩

/-- An intersection ends with the common elements, in order, at the front of the output, and
with their count. -/
def Exact (a b out : List ℕ) (r : Kernel (ℕ × List ℕ)) : Prop :=
  ∃ out', r = .ok ((overlap a b).length, out') ∧ out'.length = out.length ∧
    out'.take (overlap a b).length = overlap a b

theorem holds_merge {a b out : List ℕ} (hlen : min a.length b.length ≤ out.length) :
    Lane.Holds a b out (overlap a b) (min a.length b.length) ⟨0, a.length, 0, b.length, 0, 0⟩ where
  short_le := Nat.zero_le _
  short_end := Nat.le_refl _
  long_le := Nat.zero_le _
  long_end := Nat.le_refl _
  off_le := Nat.le_refl _
  room := by
    show 0 + min (a.length - 0) (b.length - 0) ≤ _
    omega
  stop_le := hlen
  target_eq := by simp [Lane.left, Lane.right]

theorem merge_exact {a b out : List ℕ} (ha : a.Pairwise (· < ·)) (hb : b.Pairwise (· < ·))
    (hlen : min a.length b.length ≤ out.length) : Exact a b out (merge a b out) := by
  obtain ⟨out', l, hloop, hoff, hout, hn, htarget⟩ :=
    mergeLoop_exact ha hb (holds_merge hlen) (Nat.le_refl (a.length + b.length))
  rw [hoff, List.drop_zero] at htarget
  have hcount : l.n = (overlap a b).length := by
    rw [← htarget, List.length_take, hout, Nat.min_eq_left (hn.trans hlen)]
  rw [merge, hloop]
  exact ⟨out', by rw [← hcount]; rfl, hout, by rw [← hcount]; exact htarget⟩

/-! ### Several lanes -/

/-- Lanes one after another in the output from `lo` on, each with its own part of the common
elements. -/
inductive Laid (a b out : List ℕ) : ℕ → List Lane → List (List ℕ) → Prop
  | nil {lo : ℕ} : Laid a b out lo [] []
  | cons {lo stop : ℕ} {l : Lane} {ls : List Lane} {t : List ℕ} {ts : List (List ℕ)}
      (start : lo ≤ l.off) (head : l.Holds a b out t stop) (tail : Laid a b out stop ls ts) :
      Laid a b out lo (l :: ls) (t :: ts)

section

variable {a b out out' : List ℕ} {lo : ℕ} {ls : List Lane} {ts : List (List ℕ)}

/-- What lies before the lanes is not theirs. -/
theorem Laid.congr (h : Laid a b out lo ls ts) (hlen : out'.length = out.length)
    (hdrop : out'.drop lo = out.drop lo) : Laid a b out' lo ls ts := by
  induction h with
  | nil => exact .nil
  | cons start head tail ih =>
      refine .cons start (head.congr hlen (drop_take_congr hdrop start)) (ih ?_)
      have hle := start.trans (head.off_le.trans head.n_le)
      obtain ⟨k, rfl⟩ := Nat.exists_eq_add_of_le hle
      rw [← List.drop_drop, ← List.drop_drop, hdrop]

theorem drop_set_of_lt {n x : ℕ} (h : n < lo) : (out.set n x).drop lo = out.drop lo := by
  rw [List.drop_set, if_pos h]

/-- A step of all lanes, each in its own stretch. -/
theorem Laid.stepAll (ha : a.Pairwise (· < ·)) (hb : b.Pairwise (· < ·))
    (h : Laid a b out lo ls ts) (hactive : ∀ l ∈ ls, l.active = true) :
    ∃ out' ls', stepAll a b out ls = .ok (out', ls') ∧ Laid a b out' lo ls' ts ∧
      out'.length = out.length ∧ out'.take lo = out.take lo ∧
      ls'.map Lane.off = ls.map Lane.off ∧
      ∀ l ∈ ls.head?, ∃ l' ∈ ls'.head?, l'.steps < l.steps := by
  induction ls generalizing out lo ts with
  | nil => exact ⟨out, [], rfl, h, rfl, rfl, rfl, fun l hl => nomatch hl⟩
  | cons l ls ih =>
      cases h with
      | @cons _ stop _ _ t ts start head tail =>
          have hl := hactive l List.mem_cons_self
          obtain ⟨x, y, hstep, hnext, hless⟩ := head.step ha hb hl
          have hn := head.n_lt hl
          have htail : Laid a b (out.set l.n x) stop ls ts :=
            tail.congr List.length_set (drop_set_of_lt hn)
          obtain ⟨out', ls', hrest, hlaid, hlen, htake, hoffs, -⟩ :=
            ih htail fun l hl => hactive l (List.mem_cons_of_mem _ hl)
          refine ⟨out', l.next x y :: ls', ?_, .cons start ?_ hlaid, ?_, ?_, ?_, ?_⟩
          · rw [Vector.stepAll, hstep]
            show (Vector.stepAll a b (out.set l.n x) ls >>= _) = _
            rw [hrest]
            rfl
          · apply hnext.congr hlen
            rw [take_congr htake hnext.n_le]
          · rw [hlen, List.length_set]
          · rw [take_congr htake (start.trans (head.off_le.trans head.n_le)),
              List.take_set_of_le (start.trans head.off_le)]
          · rw [List.map_cons, List.map_cons, hoffs, Lane.off_next]
          · rintro l' ⟨⟩
            exact ⟨l.next x y, rfl, hless⟩

/-- The lanes stay in their stretches for as long as they step together. -/
theorem Laid.rounds (ha : a.Pairwise (· < ·)) (hb : b.Pairwise (· < ·)) {turns : ℕ}
    (h : Laid a b out lo ls ts) (hne : ls ≠ []) (hturns : ∀ l ∈ ls.head?, l.steps ≤ turns) :
    ∃ out' ls', rounds a b turns out ls = .ok (out', ls') ∧ Laid a b out' lo ls' ts ∧
      out'.length = out.length ∧ out'.take lo = out.take lo ∧
      ls'.map Lane.off = ls.map Lane.off := by
  induction turns generalizing out ls with
  | zero =>
      obtain ⟨l, ls, rfl⟩ := List.exists_cons_of_ne_nil hne
      have hidle : (l :: ls).all Lane.active = false := by
        have hl := hturns l rfl
        rw [Lane.steps] at hl
        have hl' : l.active = false := by
          rw [← Bool.not_eq_true, Lane.active_iff]
          omega
        rw [List.all_cons, hl', Bool.false_and]
      rw [Vector.rounds, hidle, if_neg Bool.false_ne_true]
      exact ⟨out, l :: ls, rfl, h, rfl, rfl, rfl⟩
  | succ turns ih =>
      rw [Vector.rounds]
      by_cases hactive : ls.all Lane.active = true
      · obtain ⟨out', ls', hstep, hlaid, hlen, htake, hoffs, hless⟩ :=
          h.stepAll ha hb (List.all_eq_true.1 hactive)
        have hne' : ls' ≠ [] := by
          rintro rfl
          exact hne (List.map_eq_nil_iff.1 hoffs.symm)
        have hturns' : ∀ l ∈ ls'.head?, l.steps ≤ turns := by
          intro l hl
          obtain ⟨l₀, ls₀, rfl⟩ := List.exists_cons_of_ne_nil hne
          obtain ⟨l', hl', hlt⟩ := hless l₀ rfl
          have hle := hturns l₀ rfl
          cases Option.mem_unique hl hl'
          omega
        obtain ⟨out'', ls'', hrest, hlaid', hlen', htake', hoffs'⟩ := ih hlaid hne' hturns'
        rw [if_pos hactive, hstep]
        exact ⟨out'', ls'', hrest, hlaid', hlen'.trans hlen, htake'.trans htake,
          hoffs'.trans hoffs⟩
      · rw [if_neg hactive]
        exact ⟨out, ls, rfl, h, rfl, rfl, rfl⟩

/-- What each lane has found, in order: lanes that are done. -/
inductive Filled (out : List ℕ) : ℕ → List Lane → List (List ℕ) → Prop
  | nil {lo : ℕ} : Filled out lo [] []
  | cons {lo : ℕ} {l : Lane} {ls : List Lane} {t : List ℕ} {ts : List (List ℕ)}
      (start : lo ≤ l.off) (off_le : l.off ≤ l.n) (n_le : l.n ≤ out.length)
      (found : (out.take l.n).drop l.off = t) (tail : Filled out l.n ls ts) :
      Filled out lo (l :: ls) (t :: ts)

theorem Filled.mono {lo' : ℕ} (h : Filled out lo ls ts) (hlo : lo' ≤ lo) :
    Filled out lo' ls ts := by
  cases h with
  | nil => exact .nil
  | cons start off_le n_le found tail => exact .cons (hlo.trans start) off_le n_le found tail

theorem Filled.congr (h : Filled out lo ls ts) (hlen : out'.length = out.length)
    (hdrop : out'.drop lo = out.drop lo) : Filled out' lo ls ts := by
  induction h with
  | nil => exact .nil
  | cons start off_le n_le found tail ih =>
      refine .cons start off_le (n_le.trans_eq hlen.symm) ?_ (ih ?_)
      · rw [drop_take_congr hdrop start, found]
      · obtain ⟨k, hk⟩ := Nat.exists_eq_add_of_le (start.trans off_le)
        rw [hk, ← List.drop_drop, ← List.drop_drop, hdrop]

/-- An output with one stretch of it merged anew. -/
theorem splice {n cap : ℕ} {stretch : List ℕ} (hn : n ≤ cap) (hcap : cap ≤ out.length)
    (hlen : stretch.length = cap - n) :
    (out.take n ++ stretch ++ out.drop cap).length = out.length ∧
      (out.take n ++ stretch ++ out.drop cap).drop cap = out.drop cap ∧
      ∀ k ≤ cap - n, (out.take n ++ stretch ++ out.drop cap).take (n + k) =
        out.take n ++ stretch.take k := by
  have htake : (out.take n).length = n := by
    rw [List.length_take, Nat.min_eq_left (hn.trans hcap)]
  have hpart : (out.take n ++ stretch).length = cap := by
    rw [List.length_append, htake, hlen, Nat.add_sub_cancel' hn]
  refine ⟨?_, ?_, fun k hk => ?_⟩
  · rw [List.length_append, hpart, List.length_drop, Nat.add_sub_cancel' hcap]
  · rw [List.drop_append_of_le_length hpart.ge, ← hpart, List.drop_length, List.nil_append]
  · rw [List.take_append_of_le_length (by rw [hpart]; omega), List.take_append, htake,
      Nat.add_sub_cancel_left, List.take_of_length_le (by rw [htake]; omega)]

theorem Laid.finish (ha : a.Pairwise (· < ·)) (hb : b.Pairwise (· < ·))
    (h : Laid a b out lo ls ts) :
    ∃ out' ls', finish a b out ls = .ok (out', ls') ∧ Filled out' lo ls' ts ∧
      out'.length = out.length ∧ out'.take lo = out.take lo ∧
      ls'.map Lane.off = ls.map Lane.off := by
  induction ls generalizing out lo ts with
  | nil =>
      cases h
      exact ⟨out, [], rfl, .nil, rfl, rfl, rfl⟩
  | cons l ls ih =>
      cases h with
      | @cons _ stop _ _ t ts start head tail =>
          let cap := (ls.head?.map Lane.off).getD out.length
          have hstop : stop ≤ cap ∧ cap ≤ out.length ∧ Laid a b out cap ls ts := by
            cases tail with
            | nil => exact ⟨head.stop_le, Nat.le_refl _, .nil⟩
            | cons start' head' tail' =>
                exact ⟨start', head'.off_le.trans (head'.n_le.trans head'.stop_le),
                  .cons (Nat.le_refl _) head' tail'⟩
          obtain ⟨hcap, hcap_le, htail⟩ := hstop
          have hn := head.n_le.trans hcap
          have hstretch : ((out.drop l.n).take (cap - l.n)).length = cap - l.n := by
            rw [List.length_take, List.length_drop]
            omega
          have hroom : min (l.left a).length (l.right b).length ≤
              ((out.drop l.n).take (cap - l.n)).length := by
            have := head.room
            rw [hstretch, Lane.length_left head, Lane.length_right head]
            omega
          have hleft : (l.left a).Pairwise (· < ·) := pairwise_part ha l.i l.iEnd
          have hright : (l.right b).Pairwise (· < ·) := pairwise_part hb l.j l.jEnd
          obtain ⟨stretch, hmerge, hlen, htake⟩ := merge_exact hleft hright hroom
          have hfound : (overlap (l.left a) (l.right b)).length ≤ cap - l.n := by
            rw [← hstretch]
            exact (length_overlap_le hleft).trans hroom
          obtain ⟨hlen', hdrop', htake'⟩ := splice hn hcap_le (hlen.trans hstretch)
          obtain ⟨out', ls', hrest, hfilled, hlen'', htake'', hoffs⟩ :=
            ih (htail.congr hlen' hdrop')
          have hfront : out'.take (l.n + (overlap (l.left a) (l.right b)).length) =
              out.take l.n ++ overlap (l.left a) (l.right b) := by
            rw [take_congr htake'' (by omega), htake' _ hfound, htake]
          refine ⟨out', { l with n := l.n + (overlap (l.left a) (l.right b)).length } :: ls',
            ?_, .cons start ?_ ?_ ?_ ?_, ?_, ?_, ?_⟩
          · rw [Vector.finish]
            show ((slice a l.i l.iEnd : Kernel _) >>= _) = _
            rw [slice_of_le head.short_le head.short_end]
            show ((slice b l.j l.jEnd : Kernel _) >>= _) = _
            rw [slice_of_le head.long_le head.long_end]
            show ((slice out l.n cap : Kernel _) >>= _) = _
            rw [slice_of_le hn hcap_le]
            show (merge ((a.drop l.i).take (l.iEnd - l.i)) ((b.drop l.j).take (l.jEnd - l.j)) _ >>= _) = _
            rw [← List.drop_take, ← List.drop_take]
            show (merge (l.left a) (l.right b) _ >>= _) = _
            rw [hmerge]
            show (Vector.finish a b _ ls >>= _) = _
            rw [hrest]
            rfl
          · exact head.off_le.trans (Nat.le_add_right _ _)
          · rw [hlen'', hlen']
            show l.n + _ ≤ out.length
            omega
          · show (out'.take (l.n + _)).drop l.off = t
            have hoff : l.off ≤ (out.take l.n).length := by
              rw [List.length_take, Nat.min_eq_left (hn.trans hcap_le)]
              exact head.off_le
            rw [hfront, List.drop_append_of_le_length hoff, head.target_eq]
          · apply hfilled.mono
            show l.n + _ ≤ cap
            omega
          · rw [hlen'', hlen']
          · have hlo := start.trans head.off_le
            rw [take_congr htake'' (hlo.trans hn)]
            apply take_congr _ hlo
            have := htake' 0 (Nat.zero_le _)
            rw [Nat.add_zero, List.take_zero, List.append_nil] at this
            exact this
          · rw [List.map_cons, List.map_cons, hoffs]

theorem Filled.compact {total : ℕ} (h : Filled out lo ls ts) (hlo : total ≤ lo)
    (hlen : total ≤ out.length) :
    ∃ out', compact out total ls = .ok (total + ts.flatten.length, out') ∧
      out'.length = out.length ∧
      out'.take (total + ts.flatten.length) = out.take total ++ ts.flatten := by
  induction ls generalizing out lo total ts with
  | nil =>
      cases h
      exact ⟨out, rfl, rfl, by simp⟩
  | cons l ls ih =>
      cases h with
      | @cons _ _ _ t ts start off_le n_le found tail =>
          have ht : t.length = l.n - l.off := by
            rw [← found, List.length_drop, List.length_take, Nat.min_eq_left n_le]
          have hfit : total + t.length ≤ l.n := by omega
          have hn : total ≤ total + t.length := Nat.le_add_right _ _
          obtain ⟨hlen', hdrop', htake'⟩ := splice hn (hfit.trans n_le)
            (Nat.add_sub_cancel_left total t.length).symm
          have hdrop : (out.take total ++ t ++ out.drop (total + t.length)).drop l.n =
              out.drop l.n := by
            obtain ⟨k, hk⟩ := Nat.exists_eq_add_of_le hfit
            rw [hk, ← List.drop_drop (j := total + t.length), hdrop', List.drop_drop]
          obtain ⟨out', hrest, hlen'', htake''⟩ := ih (tail.congr hlen' hdrop) hfit
            ((hfit.trans n_le).trans_eq hlen'.symm)
          refine ⟨out', ?_, hlen''.trans hlen', ?_⟩
          · rw [Vector.compact]
            show ((sub l.n l.off : Kernel ℕ) >>= _) = _
            rw [sub_of_le off_le]
            show (copyWithin out l.off l.n total >>= _) = _
            have hcopy : copyWithin out l.off l.n total =
                .ok (out.take total ++ t ++ out.drop (total + t.length)) := by
              rw [copyWithin, slice_of_le off_le n_le, ← List.drop_take, found]
              exact if_pos (hfit.trans n_le)
            rw [hcopy, ← ht]
            show Vector.compact _ (total + t.length) ls = _
            rw [hrest, List.flatten_cons, List.length_append, Nat.add_assoc]
          · rw [List.flatten_cons, List.length_append, ← Nat.add_assoc, htake'',
              htake' t.length (Nat.le_of_eq (Nat.add_sub_cancel_left _ _).symm),
              List.take_length, List.append_assoc]

end

/-! ### The cuts -/

/-- Where the second list is cut: at the first element that is not below the pivot. -/
def cutAt (lanes : ℕ) (a b : List ℕ) (k : ℕ) : ℕ :=
  if k = 0 then 0 else (b.takeWhile (· < (a[cutShort lanes a k]?).getD 0)).length

section

variable {a b out : List ℕ} {lanes : ℕ}

theorem partition_below (hb : b.Pairwise (· < ·)) (p : ℕ) :
    partitionPoint (· < p) b = (b.takeWhile (· < p)).length := by
  apply partitionPoint_eq
  apply hb.imp
  intro x y hxy hy
  simp only [decide_eq_true_eq] at hy ⊢
  exact hxy.trans hy

theorem take_takeWhile (p : ℕ) (b : List ℕ) :
    b.take (b.takeWhile (· < p)).length = b.takeWhile (· < p) :=
  (List.prefix_iff_eq_take.1 (List.takeWhile_prefix _)).symm

theorem drop_takeWhile (p : ℕ) (b : List ℕ) :
    b.drop (b.takeWhile (· < p)).length = b.dropWhile (· < p) := by
  have h := @List.drop_left _ (b.takeWhile (· < p)) (b.dropWhile (· < p))
  rwa [List.takeWhile_append_dropWhile] at h

theorem mem_take_below {p y : ℕ} (h : y ∈ b.take (b.takeWhile (· < p)).length) : y < p := by
  rw [take_takeWhile] at h
  simpa using mem_takeWhile_true _ h

theorem mem_drop_above {p y : ℕ} (hb : b.Pairwise (· < ·))
    (h : y ∈ b.drop (b.takeWhile (· < p)).length) : p ≤ y := by
  rw [drop_takeWhile] at h
  have hpair : b.Pairwise fun x y => decide (y < p) = true → decide (x < p) = true := by
    apply hb.imp
    intro x y hxy hy
    simp only [decide_eq_true_eq] at hy ⊢
    exact hxy.trans hy
  simpa using takeWhile_dropWhile_split hpair y h

theorem length_takeWhile_mono {p q : ℕ} (h : p ≤ q) (b : List ℕ) :
    (b.takeWhile (· < p)).length ≤ (b.takeWhile (· < q)).length := by
  induction b with
  | nil => exact Nat.le_refl _
  | cons y b ih =>
      rw [List.takeWhile_cons, List.takeWhile_cons]
      by_cases hy : y < p
      · have hy' := hy.trans_le h
        simpa [hy, hy'] using ih
      · simp [hy]

theorem cutShort_lt (ha : a ≠ []) {k : ℕ} (hk : k < lanes) : cutShort lanes a k < a.length := by
  apply Nat.div_lt_of_lt_mul
  rw [Nat.mul_comm lanes]
  exact Nat.mul_lt_mul_of_pos_left hk (List.length_pos_of_ne_nil ha)

theorem cutShort_le {a : List ℕ} {lanes k : ℕ} (hk : k ≤ lanes) : cutShort lanes a k ≤ a.length :=
  Nat.div_le_of_le_mul (by rw [Nat.mul_comm lanes]; exact Nat.mul_le_mul_left _ hk)

theorem cutShort_mono (lanes : ℕ) (a : List ℕ) (k : ℕ) : cutShort lanes a k ≤ cutShort lanes a (k + 1) :=
  Nat.div_le_div_right (Nat.mul_le_mul_left _ (Nat.le_succ k))

theorem cutShort_self (h : 0 < lanes) : cutShort lanes a lanes = a.length :=
  Nat.mul_div_cancel _ h

theorem cutAt_le (lanes : ℕ) (a b : List ℕ) (k : ℕ) : cutAt lanes a b k ≤ b.length := by
  rw [cutAt]
  split
  · exact Nat.zero_le _
  · exact (List.takeWhile_sublist _).length_le

theorem cutAt_mono (ha : a.Pairwise (· < ·)) {k : ℕ} (hne : a ≠ [] ∨ b = [])
    (hk : k + 1 < lanes) : cutAt lanes a b k ≤ cutAt lanes a b (k + 1) := by
  rcases hne with hne | rfl
  · rw [cutAt, cutAt, if_neg (Nat.succ_ne_zero k)]
    split
    · exact Nat.zero_le _
    · apply length_takeWhile_mono
      have hlt := cutShort_lt hne hk
      have hle := cutShort_mono lanes a k
      rw [List.getElem?_eq_getElem hlt, List.getElem?_eq_getElem (hle.trans_lt hlt)]
      rcases hle.eq_or_lt with heq | hbefore
      · exact Nat.le_of_eq (by simp [heq])
      · exact (List.pairwise_iff_getElem.1 ha _ _ (hle.trans_lt hlt) hlt hbefore).le
  · exact (cutAt_le lanes a [] k).trans (Nat.zero_le _)

theorem cutLong_eq (hb : b.Pairwise (· < ·)) {k : ℕ}
    (h : k = 0 ∨ b = [] ∨ cutShort lanes a k < a.length) :
    cutLong lanes a b k = .ok (cutAt lanes a b k) := by
  rw [cutLong, cutAt]
  by_cases hk : k = 0
  · rw [if_pos (Or.inl hk), if_pos hk]
  · rw [if_neg hk]
    by_cases hnil : b = []
    · rw [if_pos (Or.inr hnil), hnil]
      rfl
    · have hlt := (h.resolve_left hk).resolve_left hnil
      have hget := List.getElem?_eq_getElem hlt
      rw [if_neg (not_or.2 ⟨hk, hnil⟩), index_of_getElem? hget, hget]
      show Except.ok (partitionPoint (· < a[cutShort lanes a k]) b) = _
      rw [partition_below hb]
      rfl

/-- What the first segments have in common is what is below the pivot. -/
theorem overlap_segment (ha : a.Pairwise (· < ·)) (hb : b.Pairwise (· < ·)) {k i j : ℕ}
    (hne : a ≠ [] ∨ b = []) (hpos : k ≠ 0) (hk : k < lanes) (hi : i ≤ cutShort lanes a k)
    (hj : j ≤ cutAt lanes a b k) :
    overlap (a.drop i) (b.drop j) =
      overlap ((a.take (cutShort lanes a k)).drop i) ((b.take (cutAt lanes a b k)).drop j) ++
        overlap (a.drop (cutShort lanes a k)) (b.drop (cutAt lanes a b k)) := by
  rcases hne with hne | rfl
  · have hlt := cutShort_lt hne hk
    have hcut : cutAt lanes a b k = (b.takeWhile (· < a[cutShort lanes a k])).length := by
      rw [cutAt, if_neg hpos, List.getElem?_eq_getElem hlt]
      rfl
    have hsplit : ∀ {l : List ℕ} {i cut : ℕ}, i ≤ cut → cut ≤ l.length →
        l.drop i = (l.take cut).drop i ++ l.drop cut := by
      intro l i cut hi hcut
      have hlen : i ≤ (l.take cut).length := by
        rw [List.length_take, Nat.min_eq_left hcut]
        exact hi
      rw [← List.drop_append_of_le_length hlen, List.take_append_drop]
    rw [hsplit hi hlt.le, hsplit hj (cutAt_le lanes a b k)]
    have hpivot := ha
    rw [← List.take_append_drop (cutShort lanes a k) a, List.pairwise_append,
      List.drop_eq_getElem_cons hlt] at hpivot
    apply overlap_cut (p := a[cutShort lanes a k])
    · intro x hx
      exact hpivot.2.2 x (List.mem_of_mem_drop hx) _ List.mem_cons_self
    · intro x hx
      rw [List.drop_eq_getElem_cons hlt] at hx
      rcases List.mem_cons.1 hx with rfl | hx
      · exact Nat.le_refl _
      · exact (List.rel_of_pairwise_cons hpivot.2.1 hx).le
    · intro y hy
      rw [hcut] at hy
      exact mem_take_below (List.mem_of_mem_drop hy)
    · intro y hy
      rw [hcut] at hy
      exact mem_drop_above hb hy
  · simp

theorem mapM_kernel {f : ℕ → Kernel ℕ} {g : ℕ → ℕ} {l : List ℕ}
    (h : ∀ k ∈ l, f k = .ok (g k)) : l.mapM f = .ok (l.map g) := by
  induction l with
  | nil => rfl
  | cons k l ih =>
      rw [List.mapM_cons, h k List.mem_cons_self, ih fun k hk => h k (List.mem_cons_of_mem _ hk)]
      rfl

theorem holds_start {i iEnd j jEnd off stop : ℕ} (hi : i ≤ iEnd) (hiEnd : iEnd ≤ a.length)
    (hj : j ≤ jEnd) (hjEnd : jEnd ≤ b.length) (hroom : off + min (iEnd - i) (jEnd - j) ≤ stop)
    (hstop : stop ≤ out.length) :
    Lane.Holds a b out (overlap ((a.take iEnd).drop i) ((b.take jEnd).drop j)) stop
      ⟨i, iEnd, j, jEnd, off, off⟩ where
  short_le := hi
  short_end := hiEnd
  long_le := hj
  long_end := hjEnd
  off_le := Nat.le_refl _
  room := hroom
  stop_le := hstop
  target_eq := by
    have hnone : (out.take off).drop off = [] :=
      List.drop_eq_nil_of_le (List.length_take_le _ _)
    rw [hnone, List.nil_append]
    rfl

/-- The lanes are laid out one after another, and what they are to find is all there is. -/
theorem layLanes_laid (ha : a.Pairwise (· < ·)) (hb : b.Pairwise (· < ·)) {m k off : ℕ}
    (hne : m = 0 ∨ a ≠ [] ∨ b = []) (hk : k + m + 1 = lanes)
    (hroom : off + min (a.length - cutShort lanes a k) (b.length - cutAt lanes a b k) ≤
      out.length) :
    ∃ l ls ts, layLanes lanes a b k off
        ((List.range' k (m + 1)).map (cutAt lanes a b)) = .ok (l :: ls) ∧
      l.off = off ∧ Laid a b out off (l :: ls) ts ∧
      ts.flatten = overlap (a.drop (cutShort lanes a k)) (b.drop (cutAt lanes a b k)) := by
  induction m generalizing k off with
  | zero =>
      have hend : cutShort lanes a (k + 1) = a.length := by
        rw [show k + 1 = lanes from hk, cutShort_self (by omega)]
      have hholds : Lane.Holds a b out _ _ _ :=
        holds_start (cutShort_le (by omega)) (Nat.le_refl _) (cutAt_le lanes a b k)
          (Nat.le_refl _) (Nat.le_refl _) hroom
      rw [List.take_length, List.take_length] at hholds
      refine ⟨_, [], _, ?_, rfl, .cons (Nat.le_refl _) hholds .nil, List.append_nil _⟩
      rw [← hend]
      rfl
  | succ m ih =>
      have hcross := hne.resolve_left (Nat.succ_ne_zero m)
      have hnext : k + 1 < lanes := by omega
      have hi := cutShort_mono lanes a k
      have hi' : cutShort lanes a (k + 1) ≤ a.length := cutShort_le hnext.le
      have hj := cutAt_mono ha hcross hnext
      have hj' := cutAt_le lanes a b (k + 1)
      let stop := off + min (cutShort lanes a (k + 1) - cutShort lanes a k)
        (cutAt lanes a b (k + 1) - cutAt lanes a b k)
      have hroom' : stop + min (a.length - cutShort lanes a (k + 1))
          (b.length - cutAt lanes a b (k + 1)) ≤ out.length := by
        omega
      obtain ⟨l, ls, ts, hlay, hoff, hlaid, hflat⟩ :=
        @ih (k + 1) stop (Or.inr hcross) (by omega) hroom'
      have hholds : Lane.Holds a b out _ stop _ :=
        holds_start hi hi' hj hj' (Nat.le_refl _) ((Nat.le_add_right _ _).trans hroom')
      refine ⟨_, l :: ls, _ :: ts, ?_, rfl, .cons (Nat.le_refl _) hholds hlaid, ?_⟩
      · rw [List.range'_succ, List.range'_succ, List.map_cons, List.map_cons]
        rw [List.range'_succ, List.map_cons] at hlay
        rw [layLanes]
        show ((sub _ _ : Kernel ℕ) >>= _) = _
        rw [sub_of_le hi]
        show ((sub _ _ : Kernel ℕ) >>= _) = _
        rw [sub_of_le hj]
        show (layLanes lanes a b (k + 1) stop _ >>= _) = _
        rw [hlay]
        rfl
      · rw [List.flatten_cons, hflat,
          overlap_segment ha hb hcross (Nat.succ_ne_zero k) hnext hi hj]

theorem mapM_cutLong (hb : b.Pairwise (· < ·)) (hne : lanes = 1 ∨ a ≠ [] ∨ b = []) :
    (List.range lanes).mapM (cutLong lanes a b) =
      .ok ((List.range' 0 lanes).map (cutAt lanes a b)) := by
  rw [← List.range_eq_range']
  apply mapM_kernel
  intro k hk
  rw [List.mem_range] at hk
  apply cutLong_eq hb
  rcases hne with rfl | hne | hnil
  · exact Or.inl (Nat.lt_one_iff.1 hk)
  · exact Or.inr (Or.inr (cutShort_lt hne hk))
  · exact Or.inr (Or.inl hnil)

theorem start_laid (ha : a.Pairwise (· < ·)) (hb : b.Pairwise (· < ·))
    (hlen : min a.length b.length ≤ out.length) (hlanes : 0 < lanes)
    (hne : lanes = 1 ∨ a ≠ [] ∨ b = []) :
    ∃ l ls ts, layLanes lanes a b 0 0 ((List.range' 0 lanes).map (cutAt lanes a b)) =
        .ok (l :: ls) ∧
      l.off = 0 ∧ Laid a b out 0 (l :: ls) ts ∧ ts.flatten = overlap a b := by
  obtain ⟨m, rfl⟩ := Nat.exists_eq_succ_of_ne_zero hlanes.ne'
  have hzero : cutShort (m + 1) a 0 = 0 := by
    rw [cutShort, Nat.mul_zero, Nat.zero_div]
  have hzero' : cutAt (m + 1) a b 0 = 0 := if_pos rfl
  have hroom : 0 + min (a.length - cutShort (m + 1) a 0) (b.length - cutAt (m + 1) a b 0) ≤
      out.length := by
    rw [hzero, hzero']
    omega
  obtain ⟨l, ls, ts, hlay, hoff, hlaid, hflat⟩ := layLanes_laid ha hb (m := m) (k := 0)
    (hne.imp_left Nat.succ_injective.eq_iff.1) (by omega) hroom
  rw [hzero, hzero', List.drop_zero, List.drop_zero] at hflat
  exact ⟨l, ls, ts, hlay, hoff, hlaid, hflat⟩

/-- The lanes of a split merge find all there is, and leave it at the front. -/
theorem splitMerge_exact (ha : a.Pairwise (· < ·)) (hb : b.Pairwise (· < ·))
    (hlen : min a.length b.length ≤ out.length) (hlanes : 0 < lanes)
    (hne : lanes = 1 ∨ a ≠ [] ∨ b = []) : Exact a b out (splitMerge lanes a b out) := by
  obtain ⟨l, ls, ts, hlay, hoff, hlaid, hflat⟩ := start_laid ha hb hlen hlanes hne
  have hturns : ∀ l' ∈ (l :: ls).head?, l'.steps ≤ a.length + b.length := by
    rintro l' ⟨⟩
    cases hlaid with
    | cons start head tail =>
        have hshort := head.short_end
        have hlong := head.long_end
        rw [Lane.steps]
        omega
  obtain ⟨out₁, ls₁, hrounds, hlaid₁, hlen₁, -, hoffs₁⟩ :=
    hlaid.rounds ha hb (List.cons_ne_nil l ls) hturns
  obtain ⟨out₂, ls₂, hfinish, hfilled, hlen₂, -, hoffs₂⟩ := hlaid₁.finish ha hb
  rw [hoffs₁] at hoffs₂
  cases hfilled with
  | nil => exact nomatch hoffs₂
  | @cons _ l' ls' t ts start off_le n_le found tail =>
      have hoff' : l'.off = 0 := (List.cons.inj hoffs₂).1.trans hoff
      rw [hoff', List.drop_zero] at found
      have hcount : l'.n = t.length := by
        rw [← found, List.length_take, Nat.min_eq_left n_le]
      obtain ⟨out', hcompact, hlen', htake⟩ := tail.compact (Nat.le_refl _) n_le
      have htarget : l'.n + ts.flatten.length = (overlap a b).length := by
        rw [← hflat, List.flatten_cons, List.length_append, hcount]
      refine ⟨out', ?_, hlen'.trans (hlen₂.trans hlen₁), ?_⟩
      · rw [splitMerge, mapM_cutLong hb hne]
        show (layLanes lanes a b 0 0 _ >>= _) = _
        rw [hlay]
        show (rounds a b (a.length + b.length) out (l :: ls) >>= _) = _
        rw [hrounds]
        show (finish a b out₁ ls₁ >>= _) = _
        rw [hfinish]
        show compact out₂ l'.n ls' = _
        rw [hcompact, htarget]
      · rw [← htarget, htake, found, ← hflat, List.flatten_cons]

/-! ### The stretches -/

/-- Each lane has written in its own stretch of the output only, up to where the next lane's
starts, and while it is active there is room in it. -/
def InStretch (len : ℕ) : List Lane → Prop
  | [] => True
  | l :: ls =>
      let cap := (ls.head?.map Lane.off).getD len
      l.off ≤ l.n ∧ l.n ≤ cap ∧ (l.active = true → l.n < cap) ∧ InStretch len ls

/-- The output and the lanes of a split merge, as its lanes step together. -/
inductive Reached (lanes : ℕ) (a b out : List ℕ) : List ℕ → List Lane → Prop
  | start {cuts : List ℕ} {ls : List Lane}
      (hcuts : (List.range lanes).mapM (cutLong lanes a b) = .ok cuts)
      (hlay : layLanes lanes a b 0 0 cuts = .ok ls) : Reached lanes a b out out ls
  | step {out₁ out₂ : List ℕ} {ls₁ ls₂ : List Lane} (before : Reached lanes a b out out₁ ls₁)
      (hactive : ls₁.all Lane.active = true)
      (hstep : stepAll a b out₁ ls₁ = .ok (out₂, ls₂)) : Reached lanes a b out out₂ ls₂

theorem Laid.inStretch {lo : ℕ} {ls : List Lane} {ts : List (List ℕ)}
    (h : Laid a b out lo ls ts) : InStretch out.length ls := by
  induction h with
  | nil => trivial
  | @cons lo stop l ls t ts start head tail ih =>
      have hcap : stop ≤ (ls.head?.map Lane.off).getD out.length := by
        cases tail with
        | nil => exact head.stop_le
        | cons start' head' tail' => exact start'
      exact ⟨head.off_le, head.n_le.trans hcap, fun hl => (head.n_lt hl).trans_le hcap, ih⟩

/-- The lanes stay laid out however often they step. -/
theorem Reached.laid (ha : a.Pairwise (· < ·)) (hb : b.Pairwise (· < ·))
    (hlen : min a.length b.length ≤ out.length) (hlanes : 0 < lanes)
    (hne : lanes = 1 ∨ a ≠ [] ∨ b = []) {out' : List ℕ} {ls' : List Lane}
    (h : Reached lanes a b out out' ls') :
    out'.length = out.length ∧ ∃ ts, Laid a b out' 0 ls' ts := by
  induction h with
  | start hcuts hlay =>
      obtain ⟨l, ls, ts, hlay', -, hlaid, -⟩ := start_laid ha hb hlen hlanes hne
      cases hcuts.symm.trans (mapM_cutLong hb hne)
      cases hlay.symm.trans hlay'
      exact ⟨rfl, ts, hlaid⟩
  | step before hactive hstep ih =>
      obtain ⟨hlen', ts, hlaid⟩ := ih
      obtain ⟨out₂, ls₂, hstep', hlaid', hlen₂, -⟩ :=
        hlaid.stepAll ha hb (List.all_eq_true.1 hactive)
      cases hstep.symm.trans hstep'
      exact ⟨hlen₂.trans hlen', ts, hlaid'⟩

end

/-! ### The gallop -/

section

variable {short long out : List ℕ} {x lo : ℕ}

theorem doubled_spec (long : List ℕ) (x lo : ℕ) {turns : ℕ} (step : ℕ) (hpos : 0 < step)
    (hturns : long.length ≤ step + turns) :
    ∃ step', doubled long x lo turns step = .ok step' ∧ 0 < step' ∧
      ∀ y, long[lo + step']? = some y → x ≤ y := by
  have hstop : ∀ {step}, ¬ (long[lo + step]?).any (· < x) = true →
      ∀ y, long[lo + step]? = some y → x ≤ y := by
    intro step hstop y hy
    rw [hy, Option.any_some, decide_eq_true_eq] at hstop
    exact Nat.le_of_not_lt hstop
  induction turns generalizing step with
  | zero =>
      have hbeyond : long[lo + step]? = none := List.getElem?_eq_none (by omega)
      have hnot : ¬ (long[lo + step]?).any (· < x) = true := by
        rw [hbeyond]
        exact Bool.false_ne_true
      rw [doubled, if_neg hnot]
      exact ⟨step, rfl, hpos, hstop hnot⟩
  | succ turns ih =>
      rw [doubled]
      by_cases hbelow : (long[lo + step]?).any (· < x) = true
      · rw [if_pos hbelow]
        exact ih (step * 2) (Nat.mul_pos hpos Nat.two_pos) (by omega)
      · rw [if_neg hbelow]
        exact ⟨step, rfl, hpos, hstop hbelow⟩

def window (long : List ℕ) (lo step : ℕ) : List ℕ :=
  (long.drop lo).take (min (lo + step + 1) long.length - lo)

/-- Where `x` is in what is left of the long list, it is in the window. -/
theorem mem_window (hlong : long.Pairwise (· < ·)) {step : ℕ}
    (hcover : ∀ y, long[lo + step]? = some y → x ≤ y) (hx : x ∈ long.drop lo) :
    x ∈ window long lo step := by
  obtain ⟨i, hi⟩ := List.mem_iff_getElem?.1 hx
  rw [List.getElem?_drop] at hi
  obtain ⟨hlt, hval⟩ := List.getElem?_eq_some_iff.1 hi
  have hin : i < min (lo + step + 1) long.length - lo := by
    by_contra hout
    have hlast : lo + step < long.length := by omega
    have hle := hcover _ (List.getElem?_eq_getElem hlast)
    have habove := List.pairwise_iff_getElem.1 hlong _ _ hlast hlt (by omega)
    omega
  apply List.mem_iff_getElem?.2
  exact ⟨i, by rw [window, List.getElem?_take_of_lt hin, List.getElem?_drop, hi]⟩

theorem overlap_found (hshort : (x :: short).Pairwise (· < ·)) {d : List ℕ}
    (hd : d.Pairwise (· < ·)) {pos : ℕ} (hpos : d[pos]? = some x) :
    overlap (x :: short) d = x :: overlap short (d.drop (pos + 1)) := by
  obtain ⟨hlt, hval⟩ := List.getElem?_eq_some_iff.1 hpos
  have hmem : x ∈ d := List.mem_of_getElem? hpos
  rw [overlap, List.filter_cons, if_pos (by simpa using hmem)]
  congr 1
  apply overlap_eq_of_mem_iff
  intro z hz
  have hxz : x < z := List.rel_of_pairwise_cons hshort hz
  rw [← List.take_append_drop pos d, List.drop_eq_getElem_cons hlt, hval,
    List.pairwise_append] at hd
  constructor
  · intro hmem
    rw [← List.take_append_drop pos d, List.drop_eq_getElem_cons hlt, hval, List.mem_append,
      List.mem_cons] at hmem
    rcases hmem with hbefore | rfl | hafter
    · exact absurd (hd.2.2 z hbefore x List.mem_cons_self) (Nat.lt_asymm hxz)
    · exact absurd hxz (Nat.lt_irrefl z)
    · exact hafter
  · exact List.mem_of_mem_drop

theorem overlap_missed (hshort : (x :: short).Pairwise (· < ·)) {d : List ℕ} {cut : ℕ}
    (hx : x ∉ d) (hcut : ∀ y ∈ d.take cut, y < x) :
    overlap (x :: short) d = overlap short (d.drop cut) := by
  rw [overlap, List.filter_cons, if_neg (by simpa using hx)]
  apply overlap_eq_of_mem_iff
  intro z hz
  have hxz : x < z := List.rel_of_pairwise_cons hshort hz
  constructor
  · intro hmem
    rw [← List.take_append_drop cut d, List.mem_append] at hmem
    rcases hmem with hbefore | hafter
    · exact absurd (hcut z hbefore) (Nat.lt_asymm hxz)
    · exact hafter
  · exact List.mem_of_mem_drop

theorem search_window {w : List ℕ} (hw : w.Pairwise (· < ·)) (hx : x ∈ w) :
    (binarySearch (fun y z => decide (y ≤ z)) w x).isSome := by
  apply binarySearch_isSome _ _ _ _ hx
  · intro i j k hij hjk
    simp only [decide_eq_true_eq] at hij hjk ⊢
    exact hij.trans hjk
  · intro i j hij hji
    simp only [decide_eq_true_eq] at hij hji
    exact Nat.le_antisymm hij hji
  · intro i
    simp
  · apply hw.imp
    intro i j hij
    simpa using hij.le

theorem gallopFrom_found {n step pos : ℕ} (hlo : lo ≤ long.length)
    (hstep : doubled long x lo long.length 1 = .ok step) (hn : n < out.length)
    (hsearch : binarySearch (fun y z => decide (y ≤ z)) (window long lo step) x = some pos) :
    gallopFrom long (x :: short) lo n out =
      if long.length ≤ lo + pos + 1 then .ok (n + 1, out.set n x)
      else gallopFrom long short (lo + pos + 1) (n + 1) (out.set n x) := by
  have hwindow : lo ≤ min (lo + step + 1) long.length := by omega
  rw [window] at hsearch
  simp only [gallopFrom, hstep, slice_of_le hwindow (Nat.min_le_right _ _), hsearch, put, if_pos hn,
    bind, Except.bind]
  rfl

theorem gallopFrom_missed {n step : ℕ} (hlo : lo ≤ long.length)
    (hstep : doubled long x lo long.length 1 = .ok step)
    (hsearch : binarySearch (fun y z => decide (y ≤ z)) (window long lo step) x = none) :
    gallopFrom long (x :: short) lo n out =
      if long.length ≤ lo + partitionPoint (· < x) (window long lo step) then .ok (n, out)
      else gallopFrom long short (lo + partitionPoint (· < x) (window long lo step)) n out := by
  have hwindow : lo ≤ min (lo + step + 1) long.length := by omega
  rw [window] at hsearch
  simp only [gallopFrom, hstep, slice_of_le hwindow (Nat.min_le_right _ _), hsearch, bind,
    Except.bind]
  rfl

/-- The gallop leaves the common elements of what is left after what it has found. -/
theorem gallopFrom_exact (hshort : short.Pairwise (· < ·)) (hlong : long.Pairwise (· < ·))
    {n : ℕ} (hlo : lo ≤ long.length)
    (hroom : n + (overlap short (long.drop lo)).length ≤ out.length) :
    ∃ out', gallopFrom long short lo n out =
        .ok (n + (overlap short (long.drop lo)).length, out') ∧
      out'.length = out.length ∧
      out'.take (n + (overlap short (long.drop lo)).length) =
        out.take n ++ overlap short (long.drop lo) := by
  induction short generalizing lo n out with
  | nil => exact ⟨out, rfl, rfl, by simp⟩
  | cons x short ih =>
      obtain ⟨step, hstep, hpos, hcover⟩ :=
        doubled_spec long x lo 1 Nat.one_pos (Nat.le_add_left _ 1)
      have hleft : (long.drop lo).Pairwise (· < ·) := hlong.drop
      have hsorted : (window long lo step).Pairwise (· < ·) := hleft.take
      cases hsearch : binarySearch (fun y z => decide (y ≤ z)) (window long lo step) x with
      | some pos =>
          have hget : (long.drop lo)[pos]? = some x := by
            have hget := binarySearch_some hsearch
            obtain ⟨hlt, -⟩ := List.getElem?_eq_some_iff.1 hget
            have hlt' := hlt.trans_le (List.length_take_le _ _)
            rwa [window, List.getElem?_take_of_lt hlt'] at hget
          have hfound := overlap_found hshort hleft hget
          rw [List.drop_drop, ← Nat.add_assoc] at hfound
          rw [hfound, List.length_cons] at hroom ⊢
          have hn : n < out.length := by omega
          rw [gallopFrom_found hlo hstep hn hsearch]
          by_cases hend : long.length ≤ lo + pos + 1
          · rw [if_pos hend, List.drop_eq_nil_of_le hend, overlap_nil_right]
            exact ⟨out.set n x, rfl, List.length_set, take_set_self hn⟩
          · rw [if_neg hend]
            have hroom' : n + 1 + (overlap short (long.drop (lo + pos + 1))).length ≤
                (out.set n x).length := by
              rw [List.length_set]
              omega
            obtain ⟨out', hrest, hlen, htake⟩ :=
              ih hshort.of_cons (Nat.le_of_not_le hend) hroom'
            have hcount : n + 1 + (overlap short (long.drop (lo + pos + 1))).length =
                n + ((overlap short (long.drop (lo + pos + 1))).length + 1) := by omega
            rw [take_set_self hn, List.append_assoc, List.singleton_append, hcount] at htake
            rw [hcount] at hrest
            exact ⟨out', hrest, hlen.trans List.length_set, htake⟩
      | none =>
          have hx : x ∉ long.drop lo := by
            intro hx
            have hsome := search_window hsorted (mem_window hlong hcover hx)
            rw [hsearch] at hsome
            exact Bool.false_ne_true hsome
          have hlen_w : ((window long lo step).takeWhile (· < x)).length ≤
              min (lo + step + 1) long.length - lo :=
            (List.takeWhile_sublist _).length_le.trans (List.length_take_le _ _)
          have hbelow : ∀ y ∈ (long.drop lo).take
              ((window long lo step).takeWhile (· < x)).length, y < x := by
            intro y hy
            rw [← Nat.min_eq_left hlen_w, ← List.take_take] at hy
            exact mem_take_below hy
          have hmissed := overlap_missed hshort hx hbelow
          rw [List.drop_drop] at hmissed
          rw [hmissed] at hroom ⊢
          rw [gallopFrom_missed hlo hstep hsearch, partition_below hsorted]
          by_cases hend : long.length ≤ lo + ((window long lo step).takeWhile (· < x)).length
          · rw [if_pos hend, List.drop_eq_nil_of_le hend, overlap_nil_right]
            exact ⟨out, rfl, rfl, by simp⟩
          · rw [if_neg hend]
            exact ih hshort.of_cons (Nat.le_of_not_le hend) hroom

theorem gallopIntersect_exact {a b : List ℕ} (ha : a.Pairwise (· < ·)) (hb : b.Pairwise (· < ·))
    (hlen : min a.length b.length ≤ out.length) : Exact a b out (gallopIntersect a b out) := by
  have hroom : 0 + (overlap a (b.drop 0)).length ≤ out.length := by
    rw [Nat.zero_add, List.drop_zero]
    exact (length_overlap_le ha).trans hlen
  obtain ⟨out', hrun, hlen', htake⟩ := gallopFrom_exact ha hb (Nat.zero_le _) hroom
  rw [List.drop_zero, Nat.zero_add] at hrun htake
  exact ⟨out', hrun, hlen', htake⟩

/-- Whichever loop it takes, the intersection is exact. -/
theorem intersectSorted_exact {a b : List ℕ} (ha : a.Pairwise (· < ·)) (hb : b.Pairwise (· < ·))
    (hlen : min a.length b.length ≤ out.length) : Exact a b out (intersectSorted a b out) := by
  have hordered : ∀ {a b : List ℕ}, a.Pairwise (· < ·) → b.Pairwise (· < ·) →
      min a.length b.length ≤ out.length → Exact a b out
        (if a = [] then .ok (0, out)
        else if gallopRatio ≤ b.length / a.length then gallopIntersect a b out
        else if 4 * splitMin ≤ a.length then splitMerge 4 a b out
        else if splitMin ≤ a.length then splitMerge 2 a b out
        else merge a b out) := by
    intro a b ha hb hlen
    by_cases hne : a = []
    · rw [if_pos hne, hne]
      exact ⟨out, rfl, rfl, rfl⟩
    · rw [if_neg hne]
      split
      · exact gallopIntersect_exact ha hb hlen
      split
      · exact splitMerge_exact ha hb hlen (by decide) (Or.inr (Or.inl hne))
      split
      · exact splitMerge_exact ha hb hlen (by decide) (Or.inr (Or.inl hne))
      · exact merge_exact ha hb hlen
  rw [intersectSorted]
  by_cases hle : a.length ≤ b.length
  · rw [if_pos hle]
    exact hordered ha hb hlen
  · rw [if_neg hle]
    have hswap := hordered hb ha (by rwa [Nat.min_comm])
    rw [Exact, overlap_comm ha hb]
    exact hswap

end

/-- Each loop leaves exactly the common elements, in order, at the front of its output and
returns their count. The lanes of a split merge, which cuts a list that is not empty wherever
there is more than one of them, stay in their own stretches for as long as they step together. -/
theorem intersection_exact {a b out : List ℕ} (ha : a.Pairwise (· < ·)) (hb : b.Pairwise (· < ·))
    (hlen : min a.length b.length ≤ out.length) :
    Exact a b out (merge a b out) ∧
      (∀ lanes, 0 < lanes → lanes = 1 ∨ a ≠ [] ∨ b = [] →
        Exact a b out (splitMerge lanes a b out) ∧
          ∀ out' ls, Reached lanes a b out out' ls →
            out'.length = out.length ∧ InStretch out.length ls) ∧
      Exact a b out (gallopIntersect a b out) ∧ Exact a b out (intersectSorted a b out) := by
  refine ⟨merge_exact ha hb hlen, fun lanes hlanes hne => ?_, gallopIntersect_exact ha hb hlen,
    intersectSorted_exact ha hb hlen⟩
  refine ⟨splitMerge_exact ha hb hlen hlanes hne, fun out' ls hreached => ?_⟩
  obtain ⟨hlen', ts, hlaid⟩ := hreached.laid ha hb hlen hlanes hne
  exact ⟨hlen', hlen' ▸ hlaid.inStretch⟩

theorem intersection_exact_ends : Exact [1, 3, 5] [3, 4, 5] [0, 0, 0] (merge [1, 3, 5] [3, 4, 5]
    [0, 0, 0]) :=
  (@intersection_exact [1, 3, 5] [3, 4, 5] [0, 0, 0] (by decide) (by decide) (by decide)).1

/-- Two lanes have no pivot to cut at where the first list is empty. -/
theorem splitMerge_empty_panics :
    ¬ ∀ (lanes : ℕ) (a b out : List ℕ), 0 < lanes → a.Pairwise (· < ·) → b.Pairwise (· < ·) →
      min a.length b.length ≤ out.length → Exact a b out (splitMerge lanes a b out) := by
  intro h
  obtain ⟨out', hrun, -⟩ := h 2 [] [1] [] (by decide) List.Pairwise.nil (by decide) (by decide)
  exact nomatch hrun

end Zu.Vector
