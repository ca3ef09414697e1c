import Zu.Lib.Probe
import Zu.Lib.BitStream

/-!
# Counting distinct values

One pass over a chunk counts its distinct values and finds the one that dominates,
over an open addressed table that a thread keeps between calls. Past the cap the
table takes no new keys and goes on counting the ones it holds. How large the table
was left makes no difference to what is found.
-/

namespace Zu.Encoding

open Lib

def golden : Word := 0x9E3779B97F4A7C15

/-- The slot a value hashes to, before the mask. -/
def hashOf (v : Word) : ℕ := ((v * golden) >>> 32).toNat

structure Counts where
  /-- How many distinct values, or none past the cap. -/
  distinct : Option ℕ
  top : Word
  topCount : ℕ
  deriving DecidableEq, Repr

/-- A pass under way. -/
structure Counting where
  slots : Slots Word
  /-- How many slots this pass wrote. -/
  used : ℕ := 0
  full : Bool := false
  top : Word
  topCount : ℕ := 0

/-- `next_power_of_two`. -/
def nextPowerOfTwo (n : ℕ) : ℕ := if n ≤ 1 then 1 else 2 ^ ((n - 1).log2 + 1)

/-- The slots a pass works in: the ones an earlier pass left, when they are enough. -/
def tableSize (old cap len : ℕ) : ℕ :=
  let want := max (nextPowerOfTwo (min cap len * 2)) 64
  if old < want then want else old

/-- What a pass does with one value. -/
def Counting.take (cap : ℕ) (s : Counting) (v : Word) : Counting :=
  match search hashOf s.slots v with
  | none => s
  | some i =>
      let n := (s.slots[i]?.map Prod.snd).getD 0
      if n = 0 then
        if s.used = cap then { s with full := true }
        else
          let s := { s with slots := s.slots.set i (v, 1), used := s.used + 1 }
          if s.topCount = 0 then { s with top := v, topCount := 1 } else s
      else
        let s := { s with slots := s.slots.set i (v, n + 1) }
        if s.topCount < n + 1 then { s with top := v, topCount := n + 1 } else s

/-- A pass that has not started, in a table of `size` slots. -/
def Counting.init (size : ℕ) (values : List Word) : Counting :=
  { slots := List.replicate size (0, 0), top := values.headD 0 }

def Counting.result (s : Counting) : Counts :=
  { distinct := if s.full then none else some s.used, top := s.top, topCount := s.topCount }

/-- `counts::count`, when the thread's table has `old` slots. -/
def countIn (old : ℕ) (values : List Word) (cap : ℕ) : Counts :=
  (values.foldl (Counting.take (min cap values.length))
    (Counting.init (tableSize old cap values.length) values)).result

def count (values : List Word) (cap : ℕ) : Counts := countIn 0 values cap

/-! ### What a pass has seen -/

theorem le_nextPowerOfTwo (n : ℕ) : n ≤ nextPowerOfTwo n := by
  rw [nextPowerOfTwo]
  split
  · assumption
  · have h : n - 1 < 2 ^ ((n - 1).log2 + 1) := Nat.lt_log2_self
    omega

theorem two_mul_le_tableSize (old cap len : ℕ) : min cap len * 2 ≤ tableSize old cap len := by
  have h := le_nextPowerOfTwo (min cap len * 2)
  rw [tableSize]
  split <;> omega

theorem tableSize_pos (old cap len : ℕ) : 0 < tableSize old cap len := by
  rw [tableSize]
  split <;> omega

/-- A key a table holds, with how often it was counted. -/
def Holds (slots : Slots Word) (k : Word) (n : ℕ) : Prop := ∃ i : ℕ, slots[i]? = some (k, n + 1)

def taken (slots : Slots Word) : ℕ := slots.countP fun e => e.2 ≠ 0

/-- What holds of a pass that has seen the values `seen`. -/
structure Counting.Seen (cap : ℕ) (seen : List Word) (s : Counting) : Prop where
  placed : Placed hashOf s.slots
  counted : ∀ k n, Holds s.slots k n → seen.count k = n + 1
  used_eq : s.used = taken s.slots
  used_le : s.used ≤ cap
  used_le_seen : s.used ≤ seen.length
  full_used : s.full = true → s.used = cap ∧ s.used < seen.length
  all : s.full = false → ∀ v ∈ seen, ∃ n, Holds s.slots v n
  room : cap * 2 ≤ s.slots.length ∧ 0 < s.slots.length
  topLe : ∀ k n, Holds s.slots k n → n + 1 ≤ s.topCount
  topEq : s.topCount ≤ seen.count s.top

theorem taken_set_of_empty {slots : Slots Word} {i : ℕ} {k : Word}
    (h : slots[i]? = some (k, 0)) (key : Word) (n : ℕ) :
    taken (slots.set i (key, n + 1)) = taken slots + 1 := by
  obtain ⟨hi, hval⟩ := List.getElem?_eq_some_iff.1 h
  rw [taken, taken, List.countP_set hi, hval]
  simp

theorem taken_set_of_taken {slots : Slots Word} {i n : ℕ} {k : Word}
    (h : slots[i]? = some (k, n + 1)) (key : Word) (m : ℕ) :
    taken (slots.set i (key, m + 1)) = taken slots := by
  obtain ⟨hi, hval⟩ := List.getElem?_eq_some_iff.1 h
  have hpos : 0 < slots.countP fun e => e.2 ≠ 0 := by
    rw [List.countP_pos_iff]
    refine ⟨slots[i], List.getElem_mem hi, ?_⟩
    rw [hval]
    exact decide_eq_true (Nat.succ_ne_zero n)
  rw [taken, taken, List.countP_set hi, hval, if_pos (decide_eq_true (Nat.succ_ne_zero n)),
    if_pos (decide_eq_true (Nat.succ_ne_zero m))]
  omega

theorem exists_empty {slots : Slots Word} (h : taken slots < slots.length) :
    ∃ (i : ℕ) (k : Word), slots[i]? = some (k, 0) := by
  by_contra hnone
  have hall : taken slots = slots.length := by
    rw [taken, List.countP_eq_length]
    intro e he
    obtain ⟨i, hi, rfl⟩ := List.getElem_of_mem he
    rw [decide_eq_true_eq]
    intro hzero
    exact hnone ⟨i, slots[i].1, by rw [List.getElem?_eq_getElem hi, ← hzero]⟩
  omega

theorem holds_set {slots : Slots Word} {i : ℕ} (hi : i < slots.length) {key : Word} {m : ℕ}
    (hplace : ∀ j n, slots[j]? = some (key, n + 1) → j = i) {k : Word} {n : ℕ}
    (hold : ∀ k' n', slots[i]? = some (k', n' + 1) → k' = key) :
    Holds (slots.set i (key, m + 1)) k n ↔
      if k = key then n = m else Holds slots k n := by
  constructor
  · rintro ⟨j, hj⟩
    by_cases hne : i = j
    · subst hne
      rw [List.getElem?_set_self hi] at hj
      cases hj
      rw [if_pos rfl]
    · rw [List.getElem?_set_ne hne] at hj
      by_cases hk : k = key
      · subst hk
        exact absurd (hplace j n hj).symm hne
      · rw [if_neg hk]
        exact ⟨j, hj⟩
  · intro h
    by_cases hk : k = key
    · rw [if_pos hk] at h
      subst hk h
      exact ⟨i, List.getElem?_set_self hi⟩
    · rw [if_neg hk] at h
      obtain ⟨j, hj⟩ := h
      refine ⟨j, ?_⟩
      rw [List.getElem?_set_ne]
      · exact hj
      · rintro rfl
        exact hk (hold k n hj)

theorem Counting.Seen.lone {cap : ℕ} {seen : List Word} {s : Counting} (h : s.Seen cap seen)
    {k : Word} {i j n m : ℕ} (hi : s.slots[i]? = some (k, n + 1))
    (hj : s.slots[j]? = some (k, m + 1)) : j = i := by
  have heq := (h.placed i k n hi).symm.trans (h.placed j k m hj)
  exact (Option.some.injEq _ _ ▸ heq).symm

/-- What a pass does with a value the table does not hold. -/
theorem Counting.take_new {cap : ℕ} {seen : List Word} {s : Counting} (h : s.Seen cap seen)
    {v : Word} (hnew : ∀ n, ¬ Holds s.slots v n) :
    ∃ i k, s.slots[i]? = some (k, 0) ∧ search hashOf s.slots v = some i ∧
      s.take cap v = if s.used = cap then { s with full := true }
        else if s.topCount = 0 then
          { s with slots := s.slots.set i (v, 1), used := s.used + 1, top := v, topCount := 1 }
        else { s with slots := s.slots.set i (v, 1), used := s.used + 1 } := by
  have hroom : taken s.slots < s.slots.length := by
    have hused := h.used_le
    have hlen := h.room
    rw [h.used_eq] at hused
    omega
  obtain ⟨e, k, he⟩ := exists_empty hroom
  obtain ⟨i, hi⟩ := Option.isSome_iff_exists.1 (search_isSome hashOf he v)
  obtain ⟨k', n, hslot, hor⟩ := probe_some hi
  have hzero : n = 0 := by
    cases hor with
    | inl hn => exact hn
    | inr hk =>
        subst hk
        cases n with
        | zero => rfl
        | succ n => exact absurd ⟨i, hslot⟩ (hnew n)
  subst hzero
  refine ⟨i, k', hslot, hi, ?_⟩
  have hempty : (s.slots[i]?.map Prod.snd).getD 0 = 0 := by
    rw [hslot]
    rfl
  rw [Counting.take, hi]
  simp only [hempty]
  rw [if_pos trivial]

theorem Counting.take_old {cap : ℕ} {seen : List Word} {s : Counting} (h : s.Seen cap seen)
    {v : Word} {i n : ℕ} (hi : s.slots[i]? = some (v, n + 1)) :
    s.take cap v =
      if s.topCount < n + 2 then
        { s with slots := s.slots.set i (v, n + 2), top := v, topCount := n + 2 }
      else { s with slots := s.slots.set i (v, n + 2) } := by
  have hslot : (s.slots[i]?.map Prod.snd).getD 0 = n + 1 := by
    rw [hi]
    rfl
  rw [Counting.take, h.placed i v n hi]
  simp only [hslot]
  rw [if_neg (Nat.succ_ne_zero n)]

theorem Counting.Seen.take {cap : ℕ} {seen : List Word} {s : Counting} (h : s.Seen cap seen)
    (v : Word) : (s.take cap v).Seen cap (seen ++ [v]) := by
  have hcount : ∀ k, (seen ++ [v]).count k = seen.count k + if k = v then 1 else 0 := by
    intro k
    rw [List.count_append, List.count_singleton]
    congr 1
    by_cases hk : k = v
    · rw [if_pos hk, if_pos (beq_iff_eq.2 hk.symm)]
    · rw [if_neg hk, if_neg (fun h => hk (beq_iff_eq.1 h).symm)]
  have hlen : (seen ++ [v]).length = seen.length + 1 := by
    rw [List.length_append, List.length_singleton]
  by_cases hold : ∃ n, Holds s.slots v n
  · obtain ⟨n, i, hi⟩ := hold
    obtain ⟨hlt, -⟩ := List.getElem?_eq_some_iff.1 hi
    have hset : ∀ k m, Holds (s.slots.set i (v, n + 1 + 1)) k m ↔
        if k = v then m = n + 1 else Holds s.slots k m := by
      intro k m
      apply holds_set hlt (fun j m hj => h.lone hi hj)
      intro k' n' hk'
      rw [hi] at hk'
      cases hk'
      rfl
    have hv : seen.count v = n + 1 := h.counted v n ⟨i, hi⟩
    have hbase : ∀ top topCount, n + 2 ≤ topCount → s.topCount ≤ topCount →
        topCount ≤ (seen ++ [v]).count top →
        Counting.Seen cap (seen ++ [v])
          { s with slots := s.slots.set i (v, n + 2), top, topCount } := by
      intro top topCount hge hle htop
      constructor
      · exact h.placed.count hi (n + 1)
      · intro k m hk
        rw [hset] at hk
        rw [hcount]
        by_cases hkv : k = v
        · rw [if_pos hkv] at hk ⊢
          rw [hkv, hv, hk]
        · rw [if_neg hkv] at hk ⊢
          exact h.counted k m hk
      · exact h.used_eq.trans (taken_set_of_taken hi v (n + 1)).symm
      · exact h.used_le
      · rw [hlen]
        exact h.used_le_seen.trans (Nat.le_succ _)
      · intro hfull
        rw [hlen]
        exact ⟨(h.full_used hfull).1, (h.full_used hfull).2.trans (Nat.lt_succ_self _)⟩
      · intro hfull w hw
        by_cases hwv : w = v
        · exact ⟨n + 1, (hset w (n + 1)).2 (by rw [if_pos hwv])⟩
        · have hmem : w ∈ seen := by
            cases List.mem_append.1 hw with
            | inl hmem => exact hmem
            | inr hmem => exact absurd (List.mem_singleton.1 hmem) hwv
          obtain ⟨m, hm⟩ := h.all hfull w hmem
          exact ⟨m, (hset w m).2 (by rwa [if_neg hwv])⟩
      · rw [List.length_set]
        exact h.room
      · intro k m hk
        rw [hset] at hk
        by_cases hkv : k = v
        · rw [if_pos hkv] at hk
          rw [hk]
          exact hge
        · rw [if_neg hkv] at hk
          exact (h.topLe k m hk).trans hle
      · exact htop
    rw [Counting.take_old h hi]
    split
    · rename_i hlt
      apply hbase v (n + 2) le_rfl hlt.le
      rw [hcount, if_pos rfl, hv]
    · rename_i hge
      apply hbase s.top s.topCount (not_lt.1 hge) le_rfl
      rw [hcount]
      exact h.topEq.trans (Nat.le_add_right _ _)
  · have hnew : ∀ n, ¬ Holds s.slots v n := fun n hn => hold ⟨n, hn⟩
    obtain ⟨i, k, hi, hsearch, htake⟩ := Counting.take_new h hnew
    have hle_count : ∀ w, seen.count w ≤ (seen ++ [v]).count w := by
      intro w
      rw [hcount]
      exact Nat.le_add_right _ _
    have hkeep : ∀ k m, Holds s.slots k m → (seen ++ [v]).count k = m + 1 := by
      intro k m hk
      have hkv : k ≠ v := by
        rintro rfl
        exact hnew m hk
      rw [hcount, if_neg hkv]
      exact h.counted k m hk
    rw [htake]
    split
    · constructor
      · exact h.placed
      · exact hkeep
      · exact h.used_eq
      · exact h.used_le
      · rw [hlen]
        exact h.used_le_seen.trans (Nat.le_succ _)
      · rename_i hcap
        intro _
        rw [hlen]
        exact ⟨hcap, Nat.lt_succ_of_le h.used_le_seen⟩
      · exact fun hfull => absurd hfull Bool.noConfusion
      · exact h.room
      · exact h.topLe
      · exact h.topEq.trans (hle_count _)
    · rename_i hcap
      obtain ⟨hlt, -⟩ := List.getElem?_eq_some_iff.1 hi
      have hset : ∀ k' m, Holds (s.slots.set i (v, 0 + 1)) k' m ↔
          if k' = v then m = 0 else Holds s.slots k' m := by
        intro k' m
        apply holds_set hlt
        · intro j m hj
          exact absurd ⟨j, hj⟩ (hnew m)
        · intro k' n' hk'
          rw [hi] at hk'
          cases hk'
      have hbase : ∀ top topCount, 1 ≤ topCount → s.topCount ≤ topCount →
          topCount ≤ (seen ++ [v]).count top →
          Counting.Seen cap (seen ++ [v])
            { s with slots := s.slots.set i (v, 1), used := s.used + 1, top, topCount } := by
        intro top topCount hge hle htop
        constructor
        · exact h.placed.insert hsearch hi
        · intro k' m hk
          rw [hset] at hk
          by_cases hkv : k' = v
          · rw [if_pos hkv] at hk
            have hzero : seen.count v = 0 := by
              apply List.count_eq_zero_of_not_mem
              intro hmem
              obtain ⟨m, hm⟩ := h.all (Bool.eq_false_of_not_eq_true
                fun hfull => hcap (h.full_used hfull).1) v hmem
              exact hnew m hm
            rw [hcount, hkv, if_pos rfl, hzero, hk]
          · rw [if_neg hkv] at hk
            exact hkeep k' m hk
        · exact congrArg (· + 1) h.used_eq |>.trans (taken_set_of_empty hi v 0).symm
        · exact lt_of_le_of_ne h.used_le hcap
        · rw [hlen]
          exact Nat.succ_le_succ h.used_le_seen
        · exact fun hfull => absurd (h.full_used hfull).1 hcap
        · intro hfull w hw
          by_cases hwv : w = v
          · exact ⟨0, (hset w 0).2 (by rw [if_pos hwv])⟩
          · have hmem : w ∈ seen := by
              cases List.mem_append.1 hw with
              | inl hmem => exact hmem
              | inr hmem => exact absurd (List.mem_singleton.1 hmem) hwv
            obtain ⟨m, hm⟩ := h.all hfull w hmem
            exact ⟨m, (hset w m).2 (by rwa [if_neg hwv])⟩
        · rw [List.length_set]
          exact h.room
        · intro k' m hk
          rw [hset] at hk
          by_cases hkv : k' = v
          · rw [if_pos hkv] at hk
            rw [hk]
            exact hge
          · rw [if_neg hkv] at hk
            exact (h.topLe k' m hk).trans hle
        · exact htop
      split
      · rename_i hzero
        apply hbase v 1 le_rfl (by omega)
        rw [hcount, if_pos rfl]
        exact Nat.le_add_left _ _
      · rename_i hpos
        exact hbase s.top s.topCount (Nat.pos_of_ne_zero hpos) le_rfl (h.topEq.trans (hle_count _))

/-! ### What a pass finds -/

theorem not_holds_replicate (size : ℕ) (k : Word) (n : ℕ) :
    ¬ Holds (List.replicate size (0, 0)) k n := by
  rintro ⟨i, hi⟩
  rw [List.getElem?_replicate] at hi
  split at hi
  · cases hi
  · cases hi

theorem Counting.seen_init {cap size : ℕ} (hroom : cap * 2 ≤ size ∧ 0 < size)
    (values : List Word) : (Counting.init size values).Seen cap [] := by
  have hnone : ∀ k n, ¬ Holds (Counting.init size values).slots k n := not_holds_replicate size
  constructor
  · exact fun i k n hi => absurd ⟨i, hi⟩ (hnone k n)
  · exact fun k n hk => absurd hk (hnone k n)
  · symm
    change taken (List.replicate size (0, 0)) = 0
    rw [taken, List.countP_replicate]
    simp
  · exact Nat.zero_le _
  · exact Nat.zero_le _
  · exact fun hfull => absurd hfull Bool.noConfusion
  · exact fun _ v hv => absurd hv List.not_mem_nil
  · change cap * 2 ≤ (List.replicate size ((0 : Word), 0)).length ∧
      0 < (List.replicate size ((0 : Word), 0)).length
    rwa [List.length_replicate]
  · exact fun k n hk => absurd hk (hnone k n)
  · exact Nat.zero_le _

theorem Counting.Seen.foldl {cap : ℕ} {seen : List Word} {s : Counting} (h : s.Seen cap seen)
    (values : List Word) : (values.foldl (Counting.take cap) s).Seen cap (seen ++ values) := by
  induction values generalizing seen s with
  | nil => rwa [List.append_nil]
  | cons v values ih =>
      have hrest := ih (h.take v)
      rwa [List.append_assoc] at hrest

section

variable (old : ℕ) (values : List Word) (cap : ℕ)

theorem seen_countIn : (values.foldl (Counting.take (min cap values.length))
    (Counting.init (tableSize old cap values.length) values)).Seen (min cap values.length)
      values := by
  have h := (Counting.seen_init ⟨two_mul_le_tableSize old cap values.length,
    tableSize_pos old cap values.length⟩ values).foldl values
  rwa [List.nil_append] at h

/-- A count of distinct values is within the cap, and no value is left out of it. -/
theorem distinct_countIn {d : ℕ} (h : (countIn old values cap).distinct = some d) :
    d ≤ cap ∧ values.toFinset.card ≤ d := by
  have hseen := seen_countIn old values cap
  rw [countIn, Counting.result] at h
  generalize values.foldl (Counting.take (min cap values.length))
    (Counting.init (tableSize old cap values.length) values) = s at h hseen
  simp only at h
  split_ifs at h with hfull
  cases h
  refine ⟨hseen.used_le.trans (Nat.min_le_left _ _), ?_⟩
  have hsub : values.toFinset ⊆ ((s.slots.filter fun e => e.2 ≠ 0).map Prod.fst).toFinset := by
    intro v hv
    rw [List.mem_toFinset] at hv ⊢
    obtain ⟨n, i, hi⟩ := hseen.all (Bool.eq_false_of_not_eq_true hfull) v hv
    rw [List.mem_map]
    refine ⟨(v, n + 1), List.mem_filter.2 ⟨List.mem_of_getElem? hi, ?_⟩, rfl⟩
    exact decide_eq_true (Nat.succ_ne_zero n)
  calc values.toFinset.card
      ≤ ((s.slots.filter fun e => e.2 ≠ 0).map Prod.fst).toFinset.card := Finset.card_le_card hsub
    _ ≤ ((s.slots.filter fun e => e.2 ≠ 0).map Prod.fst).length := List.toFinset_card_le _
    _ = s.used := by rw [List.length_map, ← List.countP_eq_length_filter, hseen.used_eq, taken]

theorem topCount_countIn_le :
    (countIn old values cap).topCount ≤ values.count (countIn old values cap).top :=
  (seen_countIn old values cap).topEq

/-- With room for every value, none is more frequent than the one on top. -/
theorem count_le_topCount (v : Word) :
    values.count v ≤ (countIn old values values.length).topCount := by
  have hseen := seen_countIn old values values.length
  rw [Nat.min_self] at hseen
  rw [countIn, Counting.result, Nat.min_self]
  generalize values.foldl (Counting.take values.length)
    (Counting.init (tableSize old values.length values.length) values) = s at hseen ⊢
  have hfull : s.full = false := by
    apply Bool.eq_false_of_not_eq_true
    intro hfull
    have h := hseen.full_used hfull
    omega
  by_cases hv : v ∈ values
  · obtain ⟨n, hn⟩ := hseen.all hfull v hv
    rw [hseen.counted v n hn]
    exact hseen.topLe v n hn
  · rw [List.count_eq_zero_of_not_mem hv]
    exact Nat.zero_le _

end

/-! ### The size of the table -/

/-- Two passes that hold the same. -/
structure Counting.Alike (s s' : Counting) : Prop where
  holds : ∀ k n, Holds s.slots k n ↔ Holds s'.slots k n
  used : s.used = s'.used
  full : s.full = s'.full
  top : s.top = s'.top
  topCount : s.topCount = s'.topCount

theorem Counting.Alike.take {cap : ℕ} {seen : List Word} {s s' : Counting} (h : s.Alike s')
    (hs : s.Seen cap seen) (hs' : s'.Seen cap seen) (v : Word) :
    (s.take cap v).Alike (s'.take cap v) := by
  by_cases hold : ∃ n, Holds s.slots v n
  · obtain ⟨n, hn⟩ := hold
    have hn' := (h.holds v n).1 hn
    obtain ⟨i, hi⟩ := hn
    obtain ⟨j, hj⟩ := hn'
    have hset : ∀ k m, Holds (s.slots.set i (v, n + 1 + 1)) k m ↔
        Holds (s'.slots.set j (v, n + 1 + 1)) k m := by
      intro k m
      rw [holds_set (List.getElem?_eq_some_iff.1 hi).1 (fun j m hj => hs.lone hi hj)
        (fun k' n' hk' => by rw [hi] at hk'; cases hk'; rfl),
        holds_set (List.getElem?_eq_some_iff.1 hj).1 (fun i m hi => hs'.lone hj hi)
        (fun k' n' hk' => by rw [hj] at hk'; cases hk'; rfl), h.holds]
    rw [Counting.take_old hs hi, Counting.take_old hs' hj, h.topCount]
    split
    · exact ⟨hset, h.used, h.full, rfl, rfl⟩
    · exact ⟨hset, h.used, h.full, h.top, rfl⟩
  · have hnew : ∀ n, ¬ Holds s.slots v n := fun n hn => hold ⟨n, hn⟩
    have hnew' : ∀ n, ¬ Holds s'.slots v n := fun n hn => hnew n ((h.holds v n).2 hn)
    obtain ⟨i, k, hi, -, htake⟩ := Counting.take_new hs hnew
    obtain ⟨j, k', hj, -, htake'⟩ := Counting.take_new hs' hnew'
    have hset : ∀ k m, Holds (s.slots.set i (v, 0 + 1)) k m ↔
        Holds (s'.slots.set j (v, 0 + 1)) k m := by
      intro k m
      rw [holds_set (List.getElem?_eq_some_iff.1 hi).1 (fun j m hj => absurd ⟨j, hj⟩ (hnew m))
        (fun k' n' hk' => by rw [hi] at hk'; cases hk'),
        holds_set (List.getElem?_eq_some_iff.1 hj).1 (fun j m hj => absurd ⟨j, hj⟩ (hnew' m))
        (fun k' n' hk' => by rw [hj] at hk'; cases hk'), h.holds]
    rw [htake, htake', h.used, h.topCount]
    split
    · exact ⟨h.holds, rfl, rfl, h.top, rfl⟩
    · split
      · exact ⟨hset, rfl, h.full, rfl, rfl⟩
      · exact ⟨hset, rfl, h.full, h.top, rfl⟩

theorem Counting.Alike.foldl {cap : ℕ} {seen : List Word} {s s' : Counting} (h : s.Alike s')
    (hs : s.Seen cap seen) (hs' : s'.Seen cap seen) (values : List Word) :
    (values.foldl (Counting.take cap) s).Alike (values.foldl (Counting.take cap) s') := by
  induction values generalizing seen s s' with
  | nil => exact h
  | cons v values ih => exact ih (h.take hs hs' v) (hs.take v) (hs'.take v)

end Zu.Encoding
