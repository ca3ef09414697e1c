import Zu.Common.Temporal
import Zu.Lib.Bytes

/-!
# Keys of statistics

A row of a fixed width column is a word, and its key is eight bytes. The buckets of a column
are cut where its sorted keys say, and what share of the rows is below a value is read off
them by the order of the bytes.
-/

namespace Zu.Props

open Lib Common Schema

def intKey (v : BitVec 64) : Bytes := beBytes 8 (v ^^^ BitVec.intMin 64).toNat

def floatKey (bits : BitVec 64) : BitVec 64 :=
  if bits.toInt < 0 then ~~~bits else bits ^^^ BitVec.intMin 64

/-- `PropValues`, of a fixed width. A zoned row is its nanoseconds and its offset. -/
inductive PropValues
  | int (v : List (BitVec 64))
  | bool (v : List Bool)
  | float (v : List (BitVec 64))
  | date (v : List (BitVec 32))
  | localTime (v : List (BitVec 64))
  | localDatetime (v : List (BitVec 64))
  | zonedTime (rows : List (BitVec 64 × BitVec 16))
  | zonedDatetime (rows : List (BitVec 64 × BitVec 16))
  | duration (kind : DurationKind) (v : List (BitVec 64))

namespace PropValues

def lane : PropValues → List (BitVec 64)
  | .int v => v
  | .bool v => v.map fun b => BitVec.ofNat 64 b.toNat
  | .float v => v
  | .date v => v.map (BitVec.signExtend 64)
  | .localTime v | .localDatetime v => v
  | .zonedTime rows | .zonedDatetime rows => rows.map Prod.fst
  | .duration _ v => v

def keys (values : PropValues) : List Bytes :=
  match values with
  | .float _ => values.lane.map fun w => intKey (floatKey w)
  | _ => values.lane.map intKey

end PropValues

/-! ### Statistics -/

structure ColStats where
  rows : ℕ
  ndv : ℕ
  top : List (Bytes × ℕ)
  bounds : List Bytes

def topValues : ℕ := 64

def histBuckets : ℕ := 64

def valueCap : ℕ := 32

def sampleCap : ℕ := 2 ^ 20

def stepBy (stride : ℕ) (keys : List Bytes) : List Bytes :=
  (List.range keys.length).filterMap fun i => if i % stride = 0 then keys[i]? else none

/-- The runs of equal keys, and how long they are. -/
def runs : List Bytes → List (Bytes × ℕ)
  | [] => []
  | key :: keys =>
      match runs keys with
      | (next, n) :: rest =>
          if key = next then (key, n + 1) :: rest else (key, 1) :: (next, n) :: rest
      | [] => [(key, 1)]

/-- The rows that a large column is sampled at. -/
def stride (rows : ℕ) : ℕ := max ((rows + sampleCap - 1) / sampleCap) 1

def sortedSample (keys : List Bytes) : List Bytes :=
  (stepBy (stride keys.length) keys).mergeSort fun a b => (compare a b).isLE

/-- The boundaries of the buckets. -/
def boundsOf (sample : List Bytes) : List Bytes :=
  if histBuckets < (runs sample).length then
    ((List.range (histBuckets + 1)).map fun b =>
      (sample.getD ((sample.length - 1) * b / histBuckets) []).take valueCap).destutter (· ≠ ·)
  else []

/-- `column_stats`, with the sketch that estimates how many keys there are. -/
def columnStats (distinctEstimate : List Bytes → ℕ) (keys : List Bytes) : ColStats :=
  if keys = [] then ⟨0, 0, [], []⟩
  else
    let sample := sortedSample keys
    let counted := (runs sample).map fun run => (run.1, run.2 * stride keys.length)
    let ndv := if stride keys.length = 1 then counted.length else distinctEstimate keys
    let short := counted.filter fun run => run.1.length ≤ valueCap
    let top := short.mergeSort fun a b => ((compare b.2 a.2).then (compare a.1 b.1)).isLE
    ⟨keys.length, min (max ndv 1) keys.length, top.take topValues, boundsOf sample⟩

/-- `below`: the share of the rows below a value. -/
def below (bounds : List Bytes) (value : Bytes) : Option ℚ :=
  match bounds with
  | first :: second :: rest =>
      if (compare value first).isLE then some 0
      else
        let full := (second :: rest).countP fun b => (compare b value).isLT
        if full = (second :: rest).length then some 1
        else some ((2 * full + 1 : ℚ) / (2 * (second :: rest).length))
  | _ => none

/-! ### What a comparison reads -/

/-- `temporal_key`: the kind of a temporal value, and its count. -/
def temporalKey : Temporal → ℕ × ℤ
  | .date days => (0, days)
  | .localTime nanos => (1, nanos)
  | .zonedTime nanos offset => (2, nanos - offset * nanosPerMinute)
  | .localDatetime nanos => (3, nanos)
  | .zonedDatetime nanos _ => (4, nanos)
  | .duration .yearMonth count => (5, count)
  | .duration .dayTime count => (6, count)

/-- The total order of floats: the negative ones below the others, the greater the magnitude
the lower. -/
def totalOrder (bits : BitVec 64) : ℤ :=
  if bits.msb then -(bits.toNat - 2 ^ 63 : ℤ) - 1 else bits.toNat

def PropValues.temporals : PropValues → List Temporal
  | .date v => v.map fun d => .date d.toInt
  | .localTime v => v.map fun n => .localTime n.toInt
  | .localDatetime v => v.map fun n => .localDatetime n.toInt
  | .zonedTime rows => rows.map fun row => .zonedTime row.1.toInt row.2.toInt
  | .zonedDatetime rows => rows.map fun row => .zonedDatetime row.1.toInt row.2.toInt
  | .duration kind v => v.map fun n => .duration kind n.toInt
  | .int _ | .bool _ | .float _ => []

/-- What a comparison of two rows of a column reads of each. -/
def PropValues.readings (values : PropValues) : List ℤ :=
  match values with
  | .int v => v.map BitVec.toInt
  | .bool v => v.map fun b => b.toNat
  | .float v => v.map totalOrder
  | _ => values.temporals.map fun t => (temporalKey t).2

/-- A column: the rows of it that hold a value. -/
structure FixedColumn where
  values : PropValues
  held : ∀ t ∈ values.temporals, t.Held

namespace FixedColumn

variable (c : FixedColumn)

/-- Each row's key, and what a comparison reads of it. -/
def rows : List (Bytes × ℤ) := c.values.keys.zip c.values.readings

/-- What the keys of a column are for: they order the rows as comparisons do, the boundaries
of its buckets ascend, and a greater value has no smaller share of the rows below it. -/
structure KeysOrder (bounds : List Bytes) : Prop where
  order : ∀ u ∈ c.rows, ∀ v ∈ c.rows, compare u.1 v.1 = compare u.2 v.2
  ascend : ∀ u ∈ c.rows, ∀ v ∈ c.rows, ∀ i j : ℕ, i ≤ j →
    bounds[i]? = some u.1 → bounds[j]? = some v.1 → u.2 ≤ v.2
  range : ∀ u ∈ c.rows, ∀ v ∈ c.rows, u.2 ≤ v.2 →
    ∀ a ∈ below bounds u.1, ∀ b ∈ below bounds v.1, a ≤ b

/-- Floats are all of one sign; of two zoned times whose clocks differ the one ahead is so by
more than its offset is, and those whose clocks agree have one offset. -/
def OneWay : Prop :=
  match c.values with
  | .float v => (∀ b ∈ v, b.msb = false) ∨ ∀ b ∈ v, b.msb = true
  | .zonedTime rows => ∀ r ∈ rows, ∀ s ∈ rows,
      (r.1.toInt = s.1.toInt → r.2.toInt = s.2.toInt) ∧
        (r.1.toInt < s.1.toInt →
          (s.2.toInt - r.2.toInt) * nanosPerMinute < s.1.toInt - r.1.toInt)
  | _ => True

end FixedColumn

/-! ### The order of words -/

theorem xor_high {a : ℕ} (ha : a < 2 ^ 64) :
    a ^^^ 2 ^ 63 = if a < 2 ^ 63 then a + 2 ^ 63 else a - 2 ^ 63 := by
  have hdiv : (a ^^^ 2 ^ 63) / 2 ^ 63 = a / 2 ^ 63 ^^^ 1 := by
    rw [Nat.xor_div_two_pow, Nat.div_self (by decide)]
  have hmod : (a ^^^ 2 ^ 63) % 2 ^ 63 = a % 2 ^ 63 := by
    rw [Nat.xor_mod_two_pow, Nat.mod_self, Nat.xor_zero]
  have hsplit := Nat.div_add_mod (a ^^^ 2 ^ 63) (2 ^ 63)
  rw [hdiv, hmod] at hsplit
  split
  case isTrue hlt =>
    rw [Nat.div_eq_of_lt hlt, Nat.mod_eq_of_lt hlt, Nat.zero_xor] at hsplit
    omega
  case isFalse hge =>
    have hone : a / 2 ^ 63 = 1 := by omega
    have hrest : a % 2 ^ 63 = a - 2 ^ 63 := by omega
    rw [hone, hrest, Nat.xor_self] at hsplit
    omega

theorem toNat_flip (w : BitVec 64) :
    (w ^^^ BitVec.intMin 64).toNat =
      if w.toNat < 2 ^ 63 then w.toNat + 2 ^ 63 else w.toNat - 2 ^ 63 := by
  rw [BitVec.toNat_xor, ← xor_high w.isLt]
  rfl

theorem compare_intKey (a b : BitVec 64) :
    compare (intKey a) (intKey b) = compare a.toInt b.toInt := by
  have hflip : ∀ w : BitVec 64, ((w ^^^ BitVec.intMin 64).toNat : ℤ) = w.toInt + 2 ^ 63 := by
    intro w
    have hlt := w.isLt
    rw [toNat_flip, BitVec.toInt_eq_toNat_cond]
    split <;> omega
  have hfits : ∀ w : BitVec 64, w.toNat < 256 ^ 8 := fun w => w.isLt
  rw [intKey, intKey, compare_beBytes (hfits _) (hfits _)]
  have ha := hflip a
  have hb := hflip b
  rcases lt_trichotomy a.toInt b.toInt with hlt | heq | hlt
  · rw [compare_lt_iff_lt.2 hlt, compare_lt_iff_lt]
    omega
  · rw [compare_eq_iff_eq.2 heq, compare_eq_iff_eq]
    omega
  · rw [compare_gt_iff_gt.2 hlt, compare_gt_iff_gt]
    omega

/-- The key of a float compares as its magnitude, with the negative ones turned round and
above the others. -/
theorem compare_floatKey (a b : BitVec 64) : compare (intKey (floatKey a)) (intKey (floatKey b)) =
    compare (if a.msb then 2 ^ 63 + totalOrder a else totalOrder a - 2 ^ 63)
      (if b.msb then 2 ^ 63 + totalOrder b else totalOrder b - 2 ^ 63) := by
  have hkey : ∀ w : BitVec 64, (floatKey w).toInt =
      if w.msb then 2 ^ 63 + totalOrder w else totalOrder w - 2 ^ 63 := by
    intro w
    have hlt := w.isLt
    have hsign : w.toInt < 0 ↔ 2 ^ 63 ≤ w.toNat := by
      rw [BitVec.toInt_eq_toNat_cond]
      split <;> omega
    by_cases hneg : 2 ^ 63 ≤ w.toNat
    · have hmsb : w.msb = true := by
        rw [BitVec.msb_eq_decide]
        exact decide_eq_true hneg
      rw [floatKey, if_pos (hsign.2 hneg), if_pos hmsb, totalOrder, if_pos hmsb,
        BitVec.toInt_eq_toNat_cond, BitVec.toNat_not]
      split <;> omega
    · have hmsb : ¬ w.msb = true := by
        rw [BitVec.msb_eq_decide]
        exact fun h => hneg (of_decide_eq_true h)
      rw [floatKey, if_neg fun h => hneg (hsign.1 h), if_neg hmsb, totalOrder, if_neg hmsb,
        BitVec.toInt_eq_toNat_cond, toNat_flip]
      split <;> split <;> omega
  rw [compare_intKey, hkey, hkey]

/-! ### The boundaries -/

theorem boundsOf_ascend {sample : List Bytes} (hshort : ∀ k ∈ sample, k.length ≤ valueCap)
    (hsorted : sample.Pairwise fun a b => (compare a b).isLE = true) :
    (boundsOf sample).Pairwise fun a b => (compare a b).isLE = true := by
  rw [boundsOf]
  split
  case isFalse => exact List.Pairwise.nil
  case isTrue =>
    refine List.Pairwise.sublist (List.destutter_sublist _ _) ?_
    rw [List.pairwise_map]
    refine List.Pairwise.imp_of_mem ?_ (List.pairwise_lt_range (n := histBuckets + 1))
    intro i j hi hj hij
    rw [List.mem_range] at hi hj
    rcases Nat.eq_zero_or_pos sample.length with hnil | hpos
    · rw [List.eq_nil_of_length_eq_zero hnil]
      rfl
    · have hlast : ∀ b < histBuckets + 1,
          (sample.length - 1) * b / histBuckets < sample.length := by
        intro b hb
        have hle : (sample.length - 1) * b / histBuckets ≤ sample.length - 1 := by
          rw [histBuckets] at hb ⊢
          apply Nat.div_le_of_le_mul
          rw [Nat.mul_comm]
          exact Nat.mul_le_mul_right _ (Nat.le_of_lt_succ hb)
        omega
      have hget : ∀ b < histBuckets + 1,
          ∃ h : (sample.length - 1) * b / histBuckets < sample.length,
          (sample.getD ((sample.length - 1) * b / histBuckets) []).take valueCap =
            sample.get ⟨(sample.length - 1) * b / histBuckets, h⟩ := by
        intro b hb
        refine ⟨hlast b hb, ?_⟩
        have hsome : sample.getD ((sample.length - 1) * b / histBuckets) [] =
            sample.get ⟨(sample.length - 1) * b / histBuckets, hlast b hb⟩ := by
          rw [List.getD_eq_getElem?_getD, List.getElem?_eq_getElem (hlast b hb)]
          rfl
        rw [hsome, List.take_of_length_le]
        exact hshort _ (List.get_mem _ _)
      obtain ⟨hi', hgeti⟩ := hget i hi
      obtain ⟨hj', hgetj⟩ := hget j hj
      rw [hgeti, hgetj]
      have hle : (sample.length - 1) * i / histBuckets ≤ (sample.length - 1) * j / histBuckets :=
        Nat.div_le_div_right (Nat.mul_le_mul_left _ hij.le)
      rcases Nat.lt_or_eq_of_le hle with hlt | heq
      · exact List.pairwise_iff_get.1 hsorted ⟨_, hi'⟩ ⟨_, hj'⟩ hlt
      · simp only [heq]
        exact Std.ReflCmp.isLE_rfl

theorem sortedSample_ascend (keys : List Bytes) :
    (sortedSample keys).Pairwise fun a b => (compare a b).isLE = true := by
  apply List.pairwise_mergeSort
  · intro a b c hab hbc
    exact Std.TransCmp.isLE_trans hab hbc
  · intro a b
    rw [Bool.or_eq_true]
    cases hcmp : compare a b with
    | lt => exact Or.inl rfl
    | eq => exact Or.inl rfl
    | gt =>
        rw [Std.OrientedCmp.lt_of_gt hcmp]
        exact Or.inr rfl

theorem mem_of_mem_sortedSample {keys : List Bytes} {k : Bytes} (h : k ∈ sortedSample keys) :
    k ∈ keys := by
  rw [sortedSample, List.mem_mergeSort, stepBy, List.mem_filterMap] at h
  obtain ⟨i, -, hi⟩ := h
  split at hi
  · exact List.mem_of_getElem? hi
  · cases hi

theorem below_mono {bounds : List Bytes} {u v : Bytes} (h : (compare u v).isLE = true) {a b : ℚ}
    (ha : a ∈ below bounds u) (hb : b ∈ below bounds v) : a ≤ b := by
  match bounds, ha, hb with
  | first :: second :: rest, ha, hb =>
      obtain ⟨buckets, hbuckets⟩ : ∃ buckets, buckets = (second :: rest).length := ⟨_, rfl⟩
      obtain ⟨full, hfull⟩ : ∃ full : Bytes → ℕ, full = fun w =>
          (second :: rest).countP fun b => (compare b w).isLT := ⟨_, rfl⟩
      have hpos : (0 : ℚ) < 2 * buckets := by
        have hsome : 0 < buckets := by
          rw [hbuckets]
          exact Nat.succ_pos _
        have hcast : (0 : ℚ) < buckets := by exact_mod_cast hsome
        linarith
      have hle : ∀ w, full w ≤ buckets := by
        intro w
        rw [hfull, hbuckets]
        exact List.countP_le_length
      have hmono : full u ≤ full v := by
        rw [hfull]
        refine List.countP_mono_left fun b _ hb => ?_
        rw [Ordering.isLT_iff_eq_lt] at hb ⊢
        exact Std.TransCmp.lt_of_lt_of_isLE hb h
      have hbelow : ∀ w, below (first :: second :: rest) w =
          if (compare w first).isLE then some 0
          else if full w = buckets then some 1
          else some ((2 * full w + 1 : ℚ) / (2 * buckets)) := by
        intro w
        rw [hfull, hbuckets]
        rfl
      have hshare : ∀ w, ∀ x ∈ below (first :: second :: rest) w, 0 ≤ x ∧ x ≤ 1 := by
        intro w x hx
        rw [hbelow, Option.mem_def] at hx
        split at hx
        · rw [← Option.some.inj hx]
          exact ⟨le_rfl, zero_le_one⟩
        · split at hx
          · rw [← Option.some.inj hx]
            exact ⟨zero_le_one, le_rfl⟩
          case isFalse hnot =>
            rw [← Option.some.inj hx]
            have hless : full w + 1 ≤ buckets := Nat.lt_of_le_of_ne (hle w) hnot
            have hless' : ((full w : ℚ) + 1) ≤ buckets := by exact_mod_cast hless
            refine ⟨by positivity, ?_⟩
            rw [div_le_one hpos]
            linarith
      by_cases hlow : (compare u first).isLE = true
      · rw [hbelow, if_pos hlow] at ha
        rw [← Option.some.inj ha]
        exact (hshare v b hb).1
      · have hhigh : ¬ (compare v first).isLE = true :=
          fun hv => hlow (Std.TransCmp.isLE_trans h hv)
        rw [hbelow, if_neg hhigh] at hb
        by_cases hall : full v = buckets
        · rw [if_pos hall] at hb
          rw [← Option.some.inj hb]
          exact (hshare u a ha).2
        · have hnot : full u ≠ buckets := by
            have := hle v
            omega
          rw [if_neg hall] at hb
          rw [hbelow, if_neg hlow, if_neg hnot] at ha
          rw [← Option.some.inj ha, ← Option.some.inj hb]
          have hcast : (full u : ℚ) ≤ full v := by exact_mod_cast hmono
          apply div_le_div_of_nonneg_right _ hpos.le
          linarith
  | [], ha, _ => cases ha
  | [_], ha, _ => cases ha

/-! ### Columns -/

namespace FixedColumn

variable {c : FixedColumn}

/-- The rows of a column, where its keys and readings are those of the same things. -/
theorem rows_eq {α : Type} {l : List α} {word : α → BitVec 64} {reading : α → ℤ}
    (hkeys : c.values.keys = l.map fun x => intKey (word x))
    (hreadings : c.values.readings = l.map reading) :
    c.rows = l.map fun x => (intKey (word x), reading x) := by
  rw [rows, hkeys, hreadings, List.zip_map']

theorem order_iff {α : Type} {l : List α} {word : α → BitVec 64} {reading : α → ℤ}
    (hkeys : c.values.keys = l.map fun x => intKey (word x))
    (hreadings : c.values.readings = l.map reading) :
    (∀ u ∈ c.rows, ∀ v ∈ c.rows, compare u.1 v.1 = compare u.2 v.2) ↔
      ∀ x ∈ l, ∀ y ∈ l, compare (intKey (word x)) (intKey (word y)) =
        compare (reading x) (reading y) := by
  rw [rows_eq hkeys hreadings]
  simp only [List.forall_mem_map]

theorem order_of_words {α : Type} {l : List α} {word : α → BitVec 64} {reading : α → ℤ}
    (hkeys : c.values.keys = l.map fun x => intKey (word x))
    (hreadings : c.values.readings = l.map reading) (hword : ∀ x, (word x).toInt = reading x) :
    ∀ u ∈ c.rows, ∀ v ∈ c.rows, compare u.1 v.1 = compare u.2 v.2 := by
  rw [order_iff hkeys hreadings]
  intro x _ y _
  rw [compare_intKey, hword, hword]

theorem order_floats {v : List (BitVec 64)} :
    (∀ a ∈ v, ∀ b ∈ v, compare (intKey (floatKey a)) (intKey (floatKey b)) =
      compare (totalOrder a) (totalOrder b)) ↔
      (∀ b ∈ v, b.msb = false) ∨ ∀ b ∈ v, b.msb = true := by
  have hsign : ∀ w : BitVec 64, if w.msb then -2 ^ 63 ≤ totalOrder w ∧ totalOrder w < 0
      else 0 ≤ totalOrder w ∧ totalOrder w < 2 ^ 63 := by
    intro w
    have hlt := w.isLt
    have hmsb : w.msb = decide (2 ^ 63 ≤ w.toNat) := BitVec.msb_eq_decide w
    rw [totalOrder]
    split
    case isTrue hneg =>
      rw [hmsb, decide_eq_true_eq] at hneg
      omega
    case isFalse hpos =>
      rw [hmsb, decide_eq_true_eq] at hpos
      omega
  constructor
  · intro h
    by_contra hmixed
    rw [not_or] at hmixed
    obtain ⟨hsome, hsome'⟩ := hmixed
    push Not at hsome hsome'
    obtain ⟨a, ha, hneg⟩ := hsome
    obtain ⟨b, hb, hpos⟩ := hsome'
    rw [ne_eq, Bool.not_eq_false] at hneg
    have hbelow := hsign a
    have habove := hsign b
    rw [if_pos hneg] at hbelow
    rw [if_neg hpos] at habove
    have hkeys := h a ha b hb
    rw [compare_floatKey, if_pos hneg, if_neg hpos, compare_gt_iff_gt.2 (by omega),
      compare_lt_iff_lt.2 (by omega)] at hkeys
    cases hkeys
  · have hshift : ∀ x y k : ℤ, compare (x + k) (y + k) = compare x y := by
      intro x y k
      rcases lt_trichotomy x y with hlt | heq | hlt
      · rw [compare_lt_iff_lt.2 hlt, compare_lt_iff_lt]
        omega
      · rw [compare_eq_iff_eq.2 heq, compare_eq_iff_eq]
        omega
      · rw [compare_gt_iff_gt.2 hlt, compare_gt_iff_gt]
        omega
    rintro (hall | hall)
    · intro a ha b hb
      rw [compare_floatKey, if_neg (by simp [hall a ha]), if_neg (by simp [hall b hb])]
      exact hshift (totalOrder a) (totalOrder b) (-2 ^ 63)
    · intro a ha b hb
      rw [compare_floatKey, if_pos (hall a ha), if_pos (hall b hb), add_comm (2 ^ 63),
        add_comm (2 ^ 63)]
      exact hshift (totalOrder a) (totalOrder b) (2 ^ 63)

theorem order_clocks {n m o p : ℤ} :
    (compare n m = compare (n - o * nanosPerMinute) (m - p * nanosPerMinute) ∧
      compare m n = compare (m - p * nanosPerMinute) (n - o * nanosPerMinute)) ↔
      ((n = m → o = p) ∧ (n < m → (p - o) * nanosPerMinute < m - n)) ∧
        ((m = n → p = o) ∧ (m < n → (o - p) * nanosPerMinute < n - m)) := by
  have hminute : nanosPerMinute = 60000000000 := rfl
  rw [hminute]
  rcases lt_trichotomy n m with hlt | heq | hlt
  · simp only [compare_lt_iff_lt.2 hlt, compare_gt_iff_gt.2 hlt, @eq_comm _ Ordering.lt,
      @eq_comm _ Ordering.gt, compare_lt_iff_lt, compare_gt_iff_gt]
    omega
  · simp only [compare_eq_iff_eq.2 heq, compare_eq_iff_eq.2 heq.symm, @eq_comm _ Ordering.eq,
      compare_eq_iff_eq]
    omega
  · simp only [compare_gt_iff_gt.2 hlt, compare_lt_iff_lt.2 hlt, @eq_comm _ Ordering.lt,
      @eq_comm _ Ordering.gt, compare_lt_iff_lt, compare_gt_iff_gt]
    omega

theorem order_times {rows : List (BitVec 64 × BitVec 16)} :
    (∀ r ∈ rows, ∀ s ∈ rows, compare (intKey r.1) (intKey s.1) =
      compare (r.1.toInt - r.2.toInt * nanosPerMinute) (s.1.toInt - s.2.toInt * nanosPerMinute)) ↔
      ∀ r ∈ rows, ∀ s ∈ rows, (r.1.toInt = s.1.toInt → r.2.toInt = s.2.toInt) ∧
        (r.1.toInt < s.1.toInt →
          (s.2.toInt - r.2.toInt) * nanosPerMinute < s.1.toInt - r.1.toInt) := by
  simp only [compare_intKey]
  constructor
  · intro h r hr s hs
    exact (order_clocks.1 ⟨h r hr s hs, h s hs r hr⟩).1
  · intro h r hr s hs
    exact (order_clocks.2 ⟨h r hr s hs, h s hs r hr⟩).1

/-- The keys order the rows exactly where a column goes one way. -/
theorem order_iff_oneWay (c : FixedColumn) :
    (∀ u ∈ c.rows, ∀ v ∈ c.rows, compare u.1 v.1 = compare u.2 v.2) ↔ c.OneWay := by
  obtain ⟨values, held⟩ := c
  have hmap : ∀ {α β γ : Type} (l : List α) (f : α → β) (g : β → γ),
      (l.map f).map g = l.map fun x => g (f x) := fun l f g => List.map_map
  cases values with
  | int v =>
      exact iff_of_true (@order_of_words ⟨.int v, held⟩ _ v id _ rfl rfl fun _ => rfl) trivial
  | bool v =>
      have hword : ∀ b : Bool, (BitVec.ofNat 64 b.toNat).toInt = b.toNat := by decide
      exact iff_of_true (@order_of_words ⟨.bool v, held⟩ _ v _ _ (hmap v _ _) rfl hword) trivial
  | float v =>
      rw [@order_iff ⟨.float v, held⟩ _ v floatKey totalOrder rfl rfl]
      exact order_floats
  | date v =>
      have hword : ∀ d : BitVec 32, (d.signExtend 64).toInt = d.toInt := fun d =>
        BitVec.toInt_signExtend_of_le (by decide)
      exact iff_of_true
        (@order_of_words ⟨.date v, held⟩ _ v _ _ (hmap v _ _) (hmap v _ _) hword) trivial
  | localTime v =>
      exact iff_of_true
        (@order_of_words ⟨.localTime v, held⟩ _ v id _ rfl (hmap v _ _) fun _ => rfl) trivial
  | localDatetime v =>
      exact iff_of_true
        (@order_of_words ⟨.localDatetime v, held⟩ _ v id _ rfl (hmap v _ _) fun _ => rfl) trivial
  | zonedTime rows =>
      rw [@order_iff ⟨.zonedTime rows, held⟩ _ rows Prod.fst _ (hmap rows _ _) (hmap rows _ _)]
      exact order_times
  | zonedDatetime rows =>
      exact iff_of_true (@order_of_words ⟨.zonedDatetime rows, held⟩ _ rows Prod.fst _
        (hmap rows _ _) (hmap rows _ _) fun _ => rfl) trivial
  | duration kind v =>
      have hcount : ∀ n : BitVec 64, n.toInt = (temporalKey (.duration kind n.toInt)).2 := by
        intro n
        cases kind <;> rfl
      exact iff_of_true
        (@order_of_words ⟨.duration kind v, held⟩ _ v id _ rfl (hmap v _ _) hcount) trivial

theorem length_key {k : Bytes} (h : k ∈ c.values.keys) : k.length = 8 := by
  have hint : ∀ w, (intKey w).length = 8 := fun w => length_beBytes 8 _
  have hall : ∀ {l : List (BitVec 64)} {f : BitVec 64 → BitVec 64},
      k ∈ (l.map fun w => intKey (f w)) → k.length = 8 := by
    intro l f hk
    obtain ⟨w, -, rfl⟩ := List.mem_map.1 hk
    exact hint (f w)
  rw [PropValues.keys.eq_def] at h
  split at h
  · exact hall h
  · exact hall (f := id) h

/-- Keys that order the rows give boundaries and shares in order. -/
theorem keysOrder_of_order (distinctEstimate : List Bytes → ℕ)
    (h : ∀ u ∈ c.rows, ∀ v ∈ c.rows, compare u.1 v.1 = compare u.2 v.2) :
    c.KeysOrder (columnStats distinctEstimate c.values.keys).bounds := by
  have hsorted : (columnStats distinctEstimate c.values.keys).bounds.Pairwise
      fun a b => (compare a b).isLE = true := by
    rw [columnStats]
    split
    · exact List.Pairwise.nil
    · refine boundsOf_ascend (fun k hk => ?_) (sortedSample_ascend _)
      rw [length_key (mem_of_mem_sortedSample hk)]
      decide
  refine ⟨h, fun u hu v hv i j hij hi hj => ?_, fun u hu v hv huv a ha b hb => ?_⟩
  · have hle : (compare u.1 v.1).isLE = true := by
      rcases Nat.lt_or_eq_of_le hij with hlt | rfl
      · have hboth := List.pairwise_iff_getElem.1 hsorted i j
          (List.getElem?_eq_some_iff.1 hi).1 (List.getElem?_eq_some_iff.1 hj).1 hlt
        rw [(List.getElem?_eq_some_iff.1 hi).2, (List.getElem?_eq_some_iff.1 hj).2] at hboth
        exact hboth
      · rw [hi, Option.some.injEq] at hj
        rw [hj]
        exact Std.ReflCmp.isLE_rfl
    rw [h u hu v hv, Std.isLE_compare] at hle
    exact hle
  · have hle : (compare u.1 v.1).isLE = true := by
      rw [h u hu v hv, Std.isLE_compare]
      exact huv
    exact below_mono hle ha hb

/-- The keys of a column do what they are for exactly where it goes one way. -/
theorem keys_order_iff (c : FixedColumn) (distinctEstimate : List Bytes → ℕ) :
    c.KeysOrder (columnStats distinctEstimate c.values.keys).bounds ↔ c.OneWay := by
  constructor
  · exact fun h => c.order_iff_oneWay.1 h.order
  · exact fun h => keysOrder_of_order distinctEstimate (c.order_iff_oneWay.2 h)

def twoFloats : FixedColumn where
  values := .float [0xBFF0000000000000#64, 0x3FF0000000000000#64]
  held := by simp [PropValues.temporals]

/-- The key of minus one is above that of one. -/
theorem not_every_order :
    ¬ twoFloats.KeysOrder (columnStats List.length twoFloats.values.keys).bounds := by
  intro h
  have hsigns : (∀ b ∈ [0xBFF0000000000000#64, 0x3FF0000000000000#64], b.msb = false) ∨
      ∀ b ∈ [0xBFF0000000000000#64, 0x3FF0000000000000#64], b.msb = true :=
    twoFloats.order_iff_oneWay.1 h.order
  rcases hsigns with hsigns | hsigns
  · exact absurd (hsigns _ List.mem_cons_self) (by decide)
  · exact absurd (hsigns _ (List.mem_cons_of_mem _ List.mem_cons_self)) (by decide)

end FixedColumn

end Zu.Props
