import Zu.Props.ListRowTrip

/-!
# What holds of the rows of a list column

A column writes its rows at their bound, or behind counts that hold it, and reads them back;
rows of an older file are read too; and every other string of bytes is refused. Each of these
holds exactly where its rows have room.
-/

namespace Zu.Props

open Lib Schema Checked

/-- A list of the type holds the element. -/
def Admits (elem : LogicalType) (item : ListElement) : Prop :=
  match item, laneWidth elem with
  | .word w, some (width, signed) => fitsWidth w width signed = true
  | .blob _, none => True
  | _, _ => False

/-- A row of so many elements may be written with rows of this kind. -/
def ListRows.Fit (count : ℕ) : ListRows → Prop
  | .fixed n => n = count ∧ count < 2 ^ 32
  | .counted width => (width = 1 ∨ width = 2 ∨ width = 4) ∧ count < 256 ^ width

/-- Rows that a directory may name. -/
def ListRows.Named : ListRows → Prop
  | .fixed n => n < 2 ^ 32
  | .counted width => width = 1 ∨ width = 2 ∨ width = 4

def ListRows.put (count : ℕ) : ListRows → Bytes
  | .fixed _ => []
  | .counted width => leBytes width count

/-- The count that a row says, or the directory. -/
def ListRows.countOf (bytes : Bytes) : ListRows → ℕ
  | .fixed n => n
  | .counted width => fromLe (bytes.take width)

def ListElement.size (lane : Option (ℕ × Bool)) : ListElement → ℕ
  | .word _ => (lane.map Prod.fst).getD 0
  | .blob b => 4 + b.length

/-- A row whose lengths fit four bytes each, and itself in memory. -/
def RowRoom (elem : LogicalType) (rows : ListRows) (items : List ListElement) : Prop :=
  (∀ b, .blob b ∈ items → b.length < 2 ^ 32) ∧
    rows.head + (items.map (ListElement.size (laneWidth elem))).sum < 2 ^ 63

/-- The row of an older file: a count of four bytes, and eight for each element of the lane. -/
def olderRow (items : List ListElement) : Bytes :=
  leBytes 4 items.length ++ items.flatMap fun item =>
    match item with
    | .word w => leBytes 8 w.toNat
    | .blob b => leBytes 4 b.length ++ b

/-! ### Writing -/

variable {elem : LogicalType} {rows : ListRows} {items : List ListElement}

theorem Admits.suits {item : ListElement} (h : Admits elem item)
    (hblob : ∀ b, item = .blob b → b.length < 2 ^ 32) : Suits (laneWidth elem) item := by
  have hlane := laneOk elem
  unfold Admits at h
  cases item with
  | word w =>
      cases hl : laneWidth elem with
      | none =>
          rw [hl] at h
          exact h
      | some lane =>
          rw [hl] at h hlane
          exact (fitsWidth_iff hlane.2.2 hlane.2.1).1 h
  | blob b =>
      cases hl : laneWidth elem with
      | none => exact hblob b rfl
      | some lane =>
          rw [hl] at h
          exact h

theorem Suits.admits {item : ListElement} (h : Suits (laneWidth elem) item) : Admits elem item := by
  have hlane := laneOk elem
  unfold Admits
  cases item with
  | word w =>
      cases hl : laneWidth elem with
      | none =>
          rw [hl] at h
          exact h
      | some lane =>
          rw [hl] at h hlane
          exact (fitsWidth_iff hlane.2.2 hlane.2.1).2 h
  | blob b =>
      cases hl : laneWidth elem with
      | none => trivial
      | some lane =>
          rw [hl] at h
          exact h

theorem encodeElement_admits {item : ListElement} (h : Admits elem item) :
    encodeElement elem item = .ok (putElement (laneWidth elem) item) := by
  have hlane := laneOk elem
  unfold Admits at h
  cases item with
  | word w =>
      cases hl : laneWidth elem with
      | none =>
          rw [hl] at h
          exact absurd h id
      | some lane =>
          rw [hl] at h hlane
          obtain ⟨width, signed⟩ := lane
          simp only [encodeElement, hl, if_pos (show fitsWidth w width signed = true from h),
            putElement, take_leBytes hlane.2.1]
  | blob b =>
      cases hl : laneWidth elem with
      | none => simp only [encodeElement, hl, putElement]
      | some lane =>
          rw [hl] at h
          exact absurd h id

theorem encodeElements_admits (h : ∀ item ∈ items, Admits elem item) :
    encodeElements elem items = .ok (items.flatMap (putElement (laneWidth elem))) := by
  induction items with
  | nil => rfl
  | cons item items ih =>
      rw [encodeElements, encodeElement_admits (h item List.mem_cons_self), ok_bind,
        ih fun i hi => h i (List.mem_cons_of_mem item hi), ok_bind, List.flatMap_cons]

theorem encodeElements_ok {bytes : Bytes} (h : encodeElements elem items = .ok bytes) :
    ∀ item ∈ items, Admits elem item := by
  induction items generalizing bytes with
  | nil => simp
  | cons item items ih =>
      rw [encodeElements] at h
      obtain ⟨first, hfirst, h⟩ := except_bind_ok.1 h
      obtain ⟨rest, hrest, -⟩ := except_bind_ok.1 h
      rw [List.forall_mem_cons]
      refine ⟨?_, ih hrest⟩
      unfold encodeElement at hfirst
      unfold Admits
      cases item with
      | word w =>
          cases hl : laneWidth elem with
          | none =>
              rw [hl] at hfirst
              cases hfirst
          | some lane =>
              simp only [hl] at hfirst
              by_cases hfit : fitsWidth w lane.1 lane.2 = true
              · exact hfit
              · rw [if_neg hfit] at hfirst
                cases hfirst
      | blob b =>
          cases hl : laneWidth elem with
          | none => trivial
          | some lane =>
              rw [hl] at hfirst
              cases hfirst

theorem length_putElement {item : ListElement} (h : Admits elem item) :
    (putElement (laneWidth elem) item).length = item.size (laneWidth elem) := by
  unfold Admits at h
  cases item with
  | word w =>
      cases hl : laneWidth elem with
      | none =>
          rw [hl] at h
          exact absurd h id
      | some lane => simp [putElement, ListElement.size]
  | blob b =>
      cases hl : laneWidth elem with
      | none => simp [putElement, ListElement.size]
      | some lane =>
          rw [hl] at h
          exact absurd h id

theorem length_flatMap_put (h : ∀ item ∈ items, Admits elem item) :
    (items.flatMap (putElement (laneWidth elem))).length =
      (items.map (ListElement.size (laneWidth elem))).sum := by
  rw [List.length_flatMap]
  congr 1
  apply List.map_congr_left
  intro item hitem
  exact length_putElement (h item hitem)

theorem ListRows.Fit.head_le {count : ℕ} (h : rows.Fit count) : rows.head ≤ 4 := by
  cases rows with
  | fixed n => exact Nat.zero_le 4
  | counted width =>
      change width ≤ 4
      rcases h.1 with h | h | h <;> omega

theorem ListRows.Fit.lt {count : ℕ} (h : rows.Fit count) : count < 2 ^ 32 := by
  cases rows with
  | fixed n => exact h.2
  | counted width =>
      have hlt := h.2
      rcases h.1 with rfl | rfl | rfl
      · exact hlt.trans_le (by decide)
      · exact hlt.trans_le (by decide)
      · exact hlt

theorem ListRows.length_put (count : ℕ) : (rows.put count).length = rows.head := by
  cases rows with
  | fixed n => rfl
  | counted width => exact length_leBytes width count

theorem encodeCount_fit {count : ℕ} (h : rows.Fit count) :
    encodeCount count rows = .ok (rows.put count) := by
  cases rows with
  | fixed n => rfl
  | counted width =>
      have hlt := h.2
      have hw : width ≤ 4 := h.head_le
      have hpow : ¬ 2 ^ (width * 8) ≤ count := by
        rw [← pow_bytes]
        exact Nat.not_le.2 hlt
      rw [encodeCount, shl, if_pos (by omega), ok_bind, if_neg hpow, putNat, if_pos (by omega),
        take_leBytes (by omega)]
      rfl

/-- What a row is written as: its count, where it says one, and its elements. -/
theorem encodeListRow_admits (hfit : rows.Fit items.length) (h : ∀ item ∈ items, Admits elem item)
    (hsize : rows.head + (items.map (ListElement.size (laneWidth elem))).sum < 2 ^ 63) :
    encodeListRow elem items rows =
      .ok (rows.put items.length ++ items.flatMap (putElement (laneWidth elem))) := by
  have hcount := hfit.lt
  have hhead := hfit.head_le
  have hstride : ((laneWidth elem).map Prod.fst).getD 4 ≤ 8 := by
    have hlane := laneOk elem
    cases hl : laneWidth elem with
    | none => decide
    | some lane =>
        rw [hl] at hlane
        exact hlane.2.1
  have hmul : items.length * ((laneWidth elem).map Prod.fst).getD 4 ≤ 2 ^ 32 * 8 :=
    Nat.mul_le_mul hcount.le hstride
  have hlen : (rows.put items.length ++ items.flatMap (putElement (laneWidth elem))).length * 1 <
      2 ^ 63 := by
    rw [Nat.mul_one, List.length_append, ListRows.length_put, length_flatMap_put h]
    exact hsize
  rw [encodeListRow]
  simp only [word_of_lt (show rows.head + items.length * ((laneWidth elem).map Prod.fst).getD 4 <
    2 ^ 64 by omega), ok_bind, withCapacity, encodeCount_fit hfit, encodeElements_admits h,
    if_pos hlen]
  rw [if_pos (by omega)]
  rfl

/-! ### Reading -/

theorem readCount_put {count : ℕ} (h : rows.Fit count) (back : Bytes) :
    readCount (rows.put count ++ back) rows = .ok count := by
  cases rows with
  | fixed n => exact congrArg Except.ok h.1
  | counted width =>
      have hw : width ≤ 4 := h.head_le
      have hlong : ¬ (leBytes width count ++ back).length < width := by
        rw [List.length_append, length_leBytes]
        omega
      change readCount (leBytes width count ++ back) (.counted width) = .ok count
      rw [readCount, if_neg hlong, if_neg (by omega), List.take_left' (length_leBytes width count),
        fromLe_leBytes_of_lt h.2]

/-- A row is read back in the lane it was written in, which its length says. -/
theorem listElements_put {lane : Option (ℕ × Bool)} (hlane : LaneOk lane) (hfit : rows.Fit items.length)
    (hsuits : ∀ item ∈ items, Suits lane item)
    (hsize : (rows.put items.length ++ items.flatMap (putElement lane)).length < 2 ^ 63)
    (hrow : rowLane elem items.length (items.flatMap (putElement lane)).length
      (rows.put items.length ++ items.flatMap (putElement lane)).length = .ok lane) :
    listElements elem (rows.put items.length ++ items.flatMap (putElement lane)) rows = .ok items := by
  have hcount := hfit.lt
  have hbody : (rows.put items.length ++ items.flatMap (putElement lane)).length - rows.head =
      (items.flatMap (putElement lane)).length := by
    rw [List.length_append, ListRows.length_put, Nat.add_sub_cancel_left]
  have hsub : rows.head ≤ (rows.put items.length ++ items.flatMap (putElement lane)).length := by
    rw [List.length_append, ListRows.length_put]
    exact Nat.le_add_right _ _
  have hread := readElements_put hlane hsuits (rows.put items.length) hsize
  rw [ListRows.length_put] at hread
  rw [listElements, readCount_put hfit, ok_bind, sub_of_le hsub, ok_bind, hbody, hrow, ok_bind,
    withCapacity, if_pos (by omega), ok_bind, hread, ok_bind, if_neg (not_not.2 rfl)]

theorem saturatingMul_of_lt {a b : ℕ} (h : a * b < 2 ^ 64) : saturatingMul a b = a * b := by
  rw [saturatingMul]
  omega

theorem sum_size_lane {width : ℕ} {signed : Bool} (hsuits : ∀ item ∈ items, Suits (some (width, signed)) item) :
    (items.flatMap (putElement (some (width, signed)))).length = items.length * width := by
  induction items with
  | nil => simp
  | cons item items ih =>
      rw [List.flatMap_cons, List.length_append, ih fun i hi => hsuits i (List.mem_cons_of_mem item hi),
        List.length_cons, Nat.add_mul, Nat.one_mul, Nat.add_comm]
      cases item with
      | word w => rw [putElement, length_leBytes]
      | blob b => exact absurd (hsuits _ List.mem_cons_self) id

theorem length_le_flatMap_put (hsuits : ∀ item ∈ items, Suits none item) :
    items.length * 4 ≤ (items.flatMap (putElement none)).length := by
  induction items with
  | nil => simp
  | cons item items ih =>
      have hrest := ih fun i hi => hsuits i (List.mem_cons_of_mem item hi)
      rw [List.flatMap_cons, List.length_append, List.length_cons]
      cases item with
      | word w => exact absurd (hsuits _ List.mem_cons_self) id
      | blob b =>
          rw [putElement, List.length_append, length_leBytes]
          omega

theorem rowLane_put (hfit : rows.Fit items.length) (hsuits : ∀ item ∈ items, Suits (laneWidth elem) item)
    (length : ℕ) :
    rowLane elem items.length (items.flatMap (putElement (laneWidth elem))).length length =
      .ok (laneWidth elem) := by
  have hcount := hfit.lt
  have hlane := laneOk elem
  cases hl : laneWidth elem with
  | none =>
      rw [hl] at hsuits
      have hle := length_le_flatMap_put hsuits
      have hroom : ¬ (items.flatMap (putElement none)).length / 4 < items.length := by omega
      simp only [rowLane, hl, if_neg hroom]
  | some lane =>
      obtain ⟨width, signed⟩ := lane
      rw [hl] at hsuits hlane
      have hmul : items.length * width ≤ 2 ^ 32 * 8 := Nat.mul_le_mul hcount.le hlane.2.1
      have hbody : (items.flatMap (putElement (some (width, signed)))).length =
          saturatingMul items.length width := by
        rw [sum_size_lane hsuits, saturatingMul_of_lt (by omega)]
      simp only [rowLane, hl, if_pos hbody]

theorem trip_of_room (hfit : rows.Fit items.length) (h : ∀ item ∈ items, Admits elem item)
    (hroom : RowRoom elem rows items) :
    ∃ bytes, encodeListRow elem items rows = .ok bytes ∧ listElements elem bytes rows = .ok items := by
  have hsuits : ∀ item ∈ items, Suits (laneWidth elem) item := by
    intro item hitem
    refine (h item hitem).suits fun b hb => hroom.1 b ?_
    rw [← hb]
    exact hitem
  have hsize : (rows.put items.length ++ items.flatMap (putElement (laneWidth elem))).length <
      2 ^ 63 := by
    rw [List.length_append, ListRows.length_put, length_flatMap_put h]
    exact hroom.2
  exact ⟨_, encodeListRow_admits hfit h hroom.2,
    listElements_put (laneOk elem) hfit hsuits hsize (rowLane_put hfit hsuits _)⟩

theorem laneOk_rowLane {count body length : ℕ} {lane : Option (ℕ × Bool)}
    (hlane : rowLane elem count body length = .ok lane) : LaneOk lane := by
  have helem := laneOk elem
  cases hl : laneWidth elem with
  | none =>
      simp only [rowLane, hl] at hlane
      split at hlane
      · cases hlane
      · cases hlane
        trivial
  | some own =>
      rw [hl] at helem
      simp only [rowLane, hl] at hlane
      split at hlane
      · cases hlane
        exact helem
      · split at hlane
        · cases hlane
          exact ⟨by decide, by decide, fun _ => rfl⟩
        · cases hlane

/-- What is read is no longer than four bytes can say. -/
theorem listElements_suits {bytes : Bytes} (h : listElements elem bytes rows = .ok items) :
    ∃ count lane, readCount bytes rows = .ok count ∧ rows.head ≤ bytes.length ∧ LaneOk lane ∧
      rowLane elem count (bytes.length - rows.head) bytes.length = .ok lane ∧
        items.length = count ∧ (∀ item ∈ items, Suits lane item) ∧
          bytes.drop rows.head = items.flatMap (putElement lane) := by
  rw [listElements] at h
  obtain ⟨count, hcount, h₁⟩ := except_bind_ok.1 h
  obtain ⟨body, hbody, h₂⟩ := except_bind_ok.1 h₁
  obtain ⟨lane, hlane, h₃⟩ := except_bind_ok.1 h₂
  obtain ⟨-, -, h₄⟩ := except_bind_ok.1 h₃
  obtain ⟨⟨read, stop⟩, hread, hout⟩ := except_bind_ok.1 h₄
  rw [sub] at hbody
  split at hbody
  case isFalse => cases hbody
  case isTrue hhead =>
    obtain rfl : bytes.length - rows.head = body := Except.ok.inj hbody
    have hok := laneOk_rowLane hlane
    split at hout
    case isTrue => cases hout
    case isFalse hstop =>
      have hitems : read = items := Except.ok.inj hout
      rw [not_not] at hstop
      simp only at hstop
      obtain ⟨-, -, hlen, hsuits, hput⟩ := readElements_spec hok hhead hread
      rw [hitems] at hlen hsuits hput
      refine ⟨count, lane, hcount, hhead, hok, hlane, hlen, hsuits, ?_⟩
      rw [← hput, hstop]
      exact (List.take_of_length_le (by rw [List.length_drop])).symm

/-- What was written is a list of the type, and takes the bytes of its elements. -/
theorem encodeListRow_ok {bytes : Bytes} (h : encodeListRow elem items rows = .ok bytes) :
    (∀ item ∈ items, Admits elem item) ∧ bytes.length < 2 ^ 63 ∧
      bytes.length = rows.head + (items.map (ListElement.size (laneWidth elem))).sum := by
  rw [encodeListRow] at h
  obtain ⟨room, -, h⟩ := except_bind_ok.1 h
  obtain ⟨-, -, h⟩ := except_bind_ok.1 h
  obtain ⟨count, hcount, h⟩ := except_bind_ok.1 h
  obtain ⟨elements, helements, h⟩ := except_bind_ok.1 h
  obtain ⟨_, hcapacity, hout⟩ := except_bind_ok.1 h
  have hadmits := encodeElements_ok helements
  have hlen := withCapacity_ok hcapacity
  rw [Nat.mul_one] at hlen
  rw [encodeElements_admits hadmits, Except.ok.injEq] at helements
  have hhead : count.length = rows.head := by
    cases rows with
    | fixed n =>
        cases hcount
        rfl
    | counted width =>
        rw [encodeCount] at hcount
        obtain ⟨most, -, hcount⟩ := except_bind_ok.1 hcount
        split at hcount
        · cases hcount
        · rw [putNat] at hcount
          split at hcount
          case isTrue hle =>
            rw [← Except.ok.inj hcount, List.length_take, length_leBytes]
            exact Nat.min_eq_left hle
          case isFalse => cases hcount
  rw [← Except.ok.inj hout]
  refine ⟨hadmits, hlen, ?_⟩
  rw [List.length_append, hhead, ← helements, length_flatMap_put hadmits]

theorem room_of_trip {bytes : Bytes} (hwrite : encodeListRow elem items rows = .ok bytes)
    (hread : listElements elem bytes rows = .ok items) : RowRoom elem rows items := by
  obtain ⟨-, hlen, hsum⟩ := encodeListRow_ok hwrite
  obtain ⟨-, lane, -, -, -, -, -, hsuits, -⟩ := listElements_suits hread
  constructor
  · intro b hb
    have hsuit := hsuits _ hb
    cases lane with
    | none => exact hsuit
    | some lane => exact absurd hsuit id
  · rwa [hsum] at hlen

/-! ### Older rows -/

theorem olderRow_eq {lane : Option (ℕ × Bool)} (h : ∀ item ∈ items, Suits lane item)
    (hwide : ∀ width signed, lane = some (width, signed) → width = 8) :
    olderRow items = leBytes 4 items.length ++ items.flatMap (putElement lane) := by
  rw [olderRow]
  congr 1
  apply List.flatMap_congr
  intro item hitem
  have hsuit := h item hitem
  cases lane with
  | some lane =>
      obtain ⟨width, signed⟩ := lane
      obtain rfl : width = 8 := hwide width signed rfl
      cases item with
      | word w => rfl
      | blob b => exact absurd hsuit id
  | none =>
      cases item with
      | word w => exact absurd hsuit id
      | blob b => rfl

theorem Admits.lane {item : ListElement} (h : Admits elem item) {width : ℕ} {signed : Bool}
    (hl : laneWidth elem = some (width, signed)) : Suits (some (8, false)) item := by
  unfold Admits at h
  rw [hl] at h
  cases item with
  | word w =>
      change FitsBits (8 * 8) false w
      rw [FitsBits, if_neg Bool.false_ne_true]
      exact w.isLt
  | blob b => exact absurd h id

/-- The rows of an older file are read as those of today. -/
theorem listElements_older (hcount : items.length < 2 ^ 32) (h : ∀ item ∈ items, Admits elem item)
    (hblobs : ∀ b, .blob b ∈ items → b.length < 2 ^ 32)
    (hsize : (olderRow items).length < 2 ^ 63) :
    listElements elem (olderRow items) (.counted 4) = .ok items := by
  have hfit : (ListRows.counted 4).Fit items.length := ⟨Or.inr (Or.inr rfl), hcount⟩
  cases hl : laneWidth elem with
  | none =>
      have hsuits : ∀ item ∈ items, Suits none item := by
        intro item hitem
        rw [← hl]
        refine (h item hitem).suits fun b hb => hblobs b ?_
        rw [← hb]
        exact hitem
      rw [olderRow_eq hsuits (fun _ _ hnone => nomatch hnone)] at hsize ⊢
      have hlane : LaneOk none := trivial
      have hnatural : ∀ item ∈ items, Suits (laneWidth elem) item := by
        rw [hl]
        exact hsuits
      have hrow := rowLane_put hfit hnatural
        (((ListRows.counted 4).put items.length ++ items.flatMap (putElement none)).length)
      rw [hl] at hrow
      exact listElements_put hlane hfit hsuits hsize hrow
  | some own =>
      obtain ⟨width, signed⟩ := own
      have hown := laneOk elem
      rw [hl] at hown
      have hsuits : ∀ item ∈ items, Suits (some (8, false)) item := fun item hitem =>
        (h item hitem).lane hl
      have hnatural : ∀ item ∈ items, Suits (laneWidth elem) item := by
        intro item hitem
        refine (h item hitem).suits fun b hb => ?_
        have hsuit := hsuits item hitem
        rw [hb] at hsuit
        exact absurd hsuit id
      rw [olderRow_eq hsuits (by rintro _ _ ⟨⟩; rfl)] at hsize ⊢
      have hbody := sum_size_lane hsuits
      by_cases hsame : items.length * 8 = items.length * width
      · -- Nothing is longer than its own width, or there is nothing.
        have hput : items.flatMap (putElement (some (8, false))) =
            items.flatMap (putElement (laneWidth elem)) := by
          rcases Nat.eq_zero_or_pos items.length with hzero | hpos
          · rw [List.length_eq_zero_iff.1 hzero]
            rfl
          · have hwidth : 8 = width := Nat.eq_of_mul_eq_mul_left hpos hsame
            have hsigned : signed = false := hown.2.2 hwidth.symm
            rw [hl, hwidth, hsigned]
        rw [hput] at hsize ⊢
        exact listElements_put (laneOk elem) hfit hnatural hsize (rowLane_put hfit hnatural _)
      · have hlane : LaneOk (some (8, false)) := ⟨by decide, by decide, fun _ => rfl⟩
        apply listElements_put hlane hfit hsuits hsize
        have hmul : items.length * width ≤ 2 ^ 32 * 8 := Nat.mul_le_mul hcount.le hown.2.1
        have hne : ¬ (items.flatMap (putElement (some (8, false)))).length =
            saturatingMul items.length width := by
          rw [hbody, saturatingMul_of_lt (by omega)]
          exact hsame
        have heq : (items.flatMap (putElement (some (8, false)))).length =
            saturatingMul items.length 8 := by
          rw [hbody, saturatingMul_of_lt (by omega)]
        simp only [rowLane, hl, if_neg hne, if_pos heq]

/-! ### Every other string of bytes -/

def wordOf (bytes : Bytes) (rows : ListRows) (i : ℕ) : Word :=
  BitVec.ofNat 64 (fromLe ((bytes.drop (rows.head + i * 8)).take 8))

/-- A row whose elements take eight bytes each though the type takes fewer, behind a count
that an older file does not have or with an element that is none of the type. -/
def Stretched (elem : LogicalType) (rows : ListRows) (bytes : Bytes) : Prop :=
  ∃ width signed, laneWidth elem = some (width, signed) ∧ width < 8 ∧ rows.head ≤ bytes.length ∧
    0 < rows.countOf bytes ∧ bytes.length = rows.head + rows.countOf bytes * 8 ∧
      (rows ≠ .counted 4 ∨
        ∃ i < rows.countOf bytes, fitsWidth (wordOf bytes rows i) width signed = false)

/-- A row that was written, today or in an older file. -/
def Written (elem : LogicalType) (rows : ListRows) (bytes : Bytes) (items : List ListElement) :
    Prop :=
  (∀ item ∈ items, Admits elem item) ∧
    (encodeListRow elem items rows = .ok bytes ∨ rows = .counted 4 ∧ bytes = olderRow items)

theorem readCount_named {bytes : Bytes} (h : rows.Named) (hlen : rows.head ≤ bytes.length) :
    readCount bytes rows = .ok (rows.countOf bytes) ∧ rows.Fit (rows.countOf bytes) ∧
      bytes.take rows.head = rows.put (rows.countOf bytes) := by
  cases rows with
  | fixed n => exact ⟨rfl, ⟨rfl, h⟩, rfl⟩
  | counted width =>
      have hw : width ≤ 4 := by
        rcases h with h | h | h <;> omega
      have hhead : width ≤ bytes.length := hlen
      have htake : (bytes.take width).length = width := List.length_take_of_le hhead
      refine ⟨?_, ⟨h, ?_⟩, ?_⟩
      · rw [readCount, if_neg (by omega), if_neg (by omega)]
        rfl
      · have := fromLe_lt (bytes.take width)
        rwa [htake] at this
      · exact (leBytes_fromLe_of_length htake).symm

theorem calm_listElements {bytes : Bytes} (h : rows.Named) (hlen : bytes.length < 2 ^ 63) :
    Calm (listElements elem bytes rows) := by
  by_cases hhead : rows.head ≤ bytes.length
  · obtain ⟨hcount, hfit, -⟩ := readCount_named h hhead
    have hlt := hfit.lt
    rw [listElements, hcount, ok_bind, sub_of_le hhead, ok_bind]
    refine Calm.bind ?_ fun lane hlane => ?_
    · unfold rowLane
      split
      · split
        · exact calm_ok _
        · split
          · exact calm_ok _
          · exact calm_refuse _
      · split
        · exact calm_refuse _
        · exact calm_ok _
    · have hok := laneOk_rowLane hlane
      rw [withCapacity, if_pos (by omega), ok_bind]
      refine (calm_readElements hok hlen hhead).bind fun items _ => ?_
      split
      · exact calm_refuse _
      · exact calm_ok _
  · cases rows with
    | fixed n => exact absurd (Nat.zero_le _) hhead
    | counted width =>
        have hshort : bytes.length < width := Nat.not_le.1 hhead
        rw [listElements, readCount, if_pos hshort]
        exact calm_refuse _

theorem take_flatMap_put (hsuits : ∀ item ∈ items, Suits (some (8, false)) item) {i : ℕ}
    (hi : i < items.length) :
    ((items.flatMap (putElement (some (8, false)))).drop (i * 8)).take 8 =
      putElement (some (8, false)) (items.get ⟨i, hi⟩) := by
  induction items generalizing i with
  | nil => exact absurd hi (Nat.not_lt_zero i)
  | cons item items ih =>
      have hsuit := hsuits item List.mem_cons_self
      have hlen : (putElement (some (8, false)) item).length = 8 := by
        cases item with
        | word w => exact length_leBytes 8 w.toNat
        | blob b => exact absurd hsuit id
      rw [List.flatMap_cons]
      cases i with
      | zero =>
          rw [Nat.zero_mul, List.drop_zero]
          exact List.take_left' hlen
      | succ i =>
          have hskip : (i + 1) * 8 = (putElement (some (8, false)) item).length + i * 8 := by
            rw [hlen]
            omega
          rw [hskip, ← List.drop_drop, List.drop_left]
          exact ih (fun j hj => hsuits j (List.mem_cons_of_mem item hj)) (Nat.lt_of_succ_lt_succ hi)

theorem not_written_of_stretched {bytes : Bytes} (hnamed : rows.Named) (hlen : bytes.length < 2 ^ 63)
    (h : Stretched elem rows bytes) :
    ∃ items, listElements elem bytes rows = .ok items ∧ ¬ Written elem rows bytes items := by
  obtain ⟨width, signed, hl, hshort, hhead, hpos, hlength, hother⟩ := h
  obtain ⟨-, hfit, hput⟩ := readCount_named hnamed hhead
  obtain ⟨items, hitems⟩ : ∃ items, items = (List.range (rows.countOf bytes)).map fun i =>
      ListElement.word (wordOf bytes rows i) := ⟨_, rfl⟩
  have hcount : items.length = rows.countOf bytes := by
    rw [hitems, List.length_map, List.length_range]
  have hsuits : ∀ item ∈ items, Suits (some (8, false)) item := by
    intro item hitem
    rw [hitems, List.mem_map] at hitem
    obtain ⟨i, -, rfl⟩ := hitem
    change FitsBits (8 * 8) false _
    rw [FitsBits, if_neg Bool.false_ne_true]
    exact BitVec.isLt _
  have hwords : ∀ k ≤ rows.countOf bytes, ((List.range k).map fun i =>
      ListElement.word (wordOf bytes rows i)).flatMap (putElement (some (8, false))) =
        (bytes.drop rows.head).take (k * 8) := by
    intro k
    induction k with
    | zero => simp
    | succ k ih =>
        intro hk
        have hpart : ((bytes.drop (rows.head + k * 8)).take 8).length = 8 := by
          rw [List.length_take, List.length_drop]
          omega
        have hback : (BitVec.ofNat 64 (fromLe ((bytes.drop (rows.head + k * 8)).take 8))).toNat =
            fromLe ((bytes.drop (rows.head + k * 8)).take 8) := by
          rw [BitVec.toNat_ofNat, Nat.mod_eq_of_lt]
          have := fromLe_lt ((bytes.drop (rows.head + k * 8)).take 8)
          rw [hpart] at this
          exact this
        rw [List.range_succ, List.map_append, List.flatMap_append, ih (Nat.le_of_succ_le hk),
          List.map_singleton, List.flatMap_singleton, putElement, wordOf, hback,
          leBytes_fromLe_of_length hpart, Nat.succ_mul, List.take_add, List.drop_drop]
  have hbytes : bytes = rows.put items.length ++ items.flatMap (putElement (some (8, false))) := by
    have hall : (bytes.drop rows.head).length ≤ rows.countOf bytes * 8 := by
      rw [List.length_drop]
      omega
    have hrest : (bytes.drop rows.head).take (rows.countOf bytes * 8) = bytes.drop rows.head :=
      List.take_of_length_le hall
    rw [hcount, ← hput, hitems, hwords _ le_rfl, hrest, List.take_append_drop]
  rw [← hcount] at hfit hpos hlength
  have hlt := hfit.lt
  have hown := laneOk elem
  rw [hl] at hown
  have hmul : items.length * width < items.length * 8 := Nat.mul_lt_mul_of_pos_left hshort hpos
  have hread : listElements elem bytes rows = .ok items := by
    rw [hbytes]
    have hlane : LaneOk (some (8, false)) := ⟨by decide, by decide, fun _ => rfl⟩
    apply listElements_put hlane hfit hsuits (by rwa [← hbytes])
    have hne : ¬ (items.flatMap (putElement (some (8, false)))).length =
        saturatingMul items.length width := by
      rw [sum_size_lane hsuits, saturatingMul_of_lt (by omega)]
      omega
    have heq : (items.flatMap (putElement (some (8, false)))).length =
        saturatingMul items.length 8 := by
      rw [sum_size_lane hsuits, saturatingMul_of_lt (by omega)]
    simp only [rowLane, hl, if_neg hne, if_pos heq]
  refine ⟨items, hread, ?_⟩
  rintro ⟨hadmits, hform⟩
  have hfits : ∀ i < rows.countOf bytes, fitsWidth (wordOf bytes rows i) width signed = true := by
    intro i hi
    have hin : ListElement.word (wordOf bytes rows i) ∈ items := by
      rw [hitems, List.mem_map]
      exact ⟨i, List.mem_range.2 hi, rfl⟩
    have hadmit := hadmits _ hin
    unfold Admits at hadmit
    rw [hl] at hadmit
    exact hadmit
  rcases hform with hencode | ⟨hfour, -⟩
  · -- A row written at its own width is shorter.
    obtain ⟨-, -, hsum⟩ := encodeListRow_ok hencode
    have hsize : (items.map (ListElement.size (laneWidth elem))).sum = items.length * width := by
      rw [← length_flatMap_put hadmits, hl, sum_size_lane]
      intro item hitem
      have hsuit := (hadmits item hitem).suits fun b hb => by
        have hword := hsuits item hitem
        rw [hb] at hword
        exact absurd hword id
      rwa [hl] at hsuit
    omega
  · rcases hother with hne | ⟨i, hi, hfalse⟩
    · exact hne hfour
    · rw [hfits i hi] at hfalse
      cases hfalse

theorem written_of_read {bytes : Bytes} (hnamed : rows.Named) (hlen : bytes.length < 2 ^ 63)
    (hroom : ¬ Stretched elem rows bytes) (h : listElements elem bytes rows = .ok items) :
    Written elem rows bytes items := by
  obtain ⟨count, lane, hcount, hhead, hok, hlane, hitems, hsuits, hput⟩ := listElements_suits h
  obtain ⟨hcount', hfit, hput'⟩ := readCount_named hnamed hhead
  obtain rfl : rows.countOf bytes = count := by
    rw [hcount'] at hcount
    exact Except.ok.inj hcount
  have hbytes : bytes = rows.put items.length ++ items.flatMap (putElement lane) := by
    rw [hitems, ← hput', ← hput, List.take_append_drop]
  rw [← hitems] at hfit
  -- Read at its own width, a row was written at it.
  have hnatural : lane = laneWidth elem → Written elem rows bytes items := by
    intro heq
    have hadmits : ∀ item ∈ items, Admits elem item := by
      intro item hitem
      apply Suits.admits
      rw [← heq]
      exact hsuits item hitem
    refine ⟨hadmits, Or.inl ?_⟩
    rw [hbytes, heq]
    apply encodeListRow_admits hfit hadmits
    rw [hbytes, heq, List.length_append, ListRows.length_put, length_flatMap_put hadmits] at hlen
    exact hlen
  cases hl : laneWidth elem with
  | none =>
      apply hnatural
      simp only [rowLane, hl] at hlane
      split at hlane
      · cases hlane
      · rw [hl]
        exact (Except.ok.inj hlane).symm
  | some own =>
      obtain ⟨width, signed⟩ := own
      have hown := laneOk elem
      rw [hl] at hown
      simp only [rowLane, hl] at hlane
      split at hlane
      case isTrue =>
        apply hnatural
        rw [hl]
        exact (Except.ok.inj hlane).symm
      case isFalse hother =>
        split at hlane
        case isFalse => cases hlane
        case isTrue height =>
          obtain rfl : some (8, false) = lane := Except.ok.inj hlane
          have hlt := hfit.lt
          have hmul : items.length * width ≤ 2 ^ 32 * 8 := Nat.mul_le_mul hlt.le hown.2.1
          rw [← hitems, saturatingMul_of_lt (by omega)] at hother height
          have hshort : width < 8 := by
            refine lt_of_le_of_ne hown.2.1 fun h8 => hother ?_
            rw [h8]
            exact height
          have hpos : 0 < items.length := by
            refine Nat.pos_of_ne_zero fun hzero => hother ?_
            rw [hzero, Nat.zero_mul] at height ⊢
            exact height
          have hword : ∀ item ∈ items, ∃ i < items.length, item = .word (wordOf bytes rows i) := by
            intro item hitem
            obtain ⟨i, hi, hget⟩ := List.getElem_of_mem hitem
            refine ⟨i, hi, ?_⟩
            have hat := take_flatMap_put hsuits hi
            rw [List.get_eq_getElem, hget] at hat
            have hsuit := hsuits item hitem
            cases item with
            | blob b => exact absurd hsuit id
            | word w =>
                have hdrop : bytes.drop (rows.head + i * 8) =
                    (items.flatMap (putElement (some (8, false)))).drop (i * 8) := by
                  rw [← hput, List.drop_drop]
                have hlt64 : w.toNat < 256 ^ 8 := w.isLt
                rw [wordOf, hdrop, hat, putElement, fromLe_leBytes_of_lt hlt64, BitVec.ofNat_toNat,
                  BitVec.setWidth_eq]
          have hlength : bytes.length = rows.head + items.length * 8 := by
            conv_lhs => rw [hbytes]
            rw [List.length_append, ListRows.length_put, sum_size_lane hsuits]
          have hkept : rows = .counted 4 ∧
              ∀ i < items.length, fitsWidth (wordOf bytes rows i) width signed = true := by
            constructor
            · by_contra hne
              refine hroom ⟨width, signed, hl, hshort, hhead, ?_, ?_, Or.inl hne⟩
              · rwa [← hitems]
              · rwa [← hitems]
            · intro i hi
              by_contra hne
              refine hroom ⟨width, signed, hl, hshort, hhead, ?_, ?_, Or.inr ⟨i, ?_, ?_⟩⟩
              · rwa [← hitems]
              · rwa [← hitems]
              · rwa [← hitems]
              · exact Bool.eq_false_iff.2 hne
          obtain ⟨hfour, hfits⟩ := hkept
          refine ⟨?_, Or.inr ⟨hfour, ?_⟩⟩
          · intro item hitem
            obtain ⟨i, hi, rfl⟩ := hword item hitem
            unfold Admits
            rw [hl]
            exact hfits i hi
          · rw [olderRow_eq hsuits (by rintro _ _ ⟨⟩; rfl)]
            conv_lhs => rw [hbytes, hfour]
            rfl

/-! ### A column of lists -/

/-- A list column at store time: the declaration, and for each row whether it holds a value
and its elements. -/
structure ListColumn where
  elem : LogicalType
  most : Option UInt32
  rows : List (Bool × List ListElement)

namespace ListColumn

variable (c : ListColumn)

def ty : LogicalType := columnType (.list c.elem c.most)

/-- The rows that hold more than their bound are refused. -/
def checkRows (name : String) (bound : ℕ) :
    ℕ → List (Bool × List ListElement) → Except ZuError Unit
  | _, [] => .ok ()
  | row, (held, items) :: rows =>
      if held ∧ bound < items.length then
        .error (.invalidArgument
          s!"column '{name}' is declared {display c.ty} and row {row} holds {items.length} elements")
      else checkRows name bound (row + 1) rows

/-- `check_declared`, of a list column. -/
def checkDeclared (name : String) : Except ZuError Unit :=
  match c.most with
  | some bound => c.checkRows name bound.toNat 0 c.rows
  | none => .ok ()

/-- The bound, where every row that holds a value is at it. -/
def fixedLen : Option ℕ :=
  match boundedList c.ty with
  | some (bound, _) => if c.rows.all fun row => !row.1 || row.2.length = bound then some bound else none
  | none => none

/-- How the rows of the column say their counts. -/
def listRows : ListRows :=
  match c.fixedLen with
  | some count => .fixed count
  | none => .counted (countWidth c.ty)

/-- A row of the column: one without a value is the bound in zeros, where no row says its
count. -/
def encodeRow (row : Bool × List ListElement) : Checked ZuError Bytes :=
  match c.fixedLen with
  | some count =>
      encodeListRow (listElem c.elem) (if row.1 then row.2 else List.replicate count (.word 0))
        c.listRows
  | none => encodeListRow (listElem c.elem) row.2 c.listRows

theorem checkRows_ok {name : String} {bound row : ℕ} {rows : List (Bool × List ListElement)}
    (h : c.checkRows name bound row rows = .ok ()) :
    ∀ r ∈ rows, r.1 = true → r.2.length ≤ bound := by
  induction rows generalizing row with
  | nil => simp
  | cons first rows ih =>
      obtain ⟨held, items⟩ := first
      rw [checkRows] at h
      split at h
      case isTrue => cases h
      case isFalse hfit =>
        rw [List.forall_mem_cons]
        refine ⟨fun hheld => ?_, ih h⟩
        rw [not_and, not_lt] at hfit
        exact hfit hheld

/-- The width that is chosen fits every count of the column. -/
theorem listRows_fit {name : String} (hcheck : c.checkDeclared name = .ok ())
    {row : Bool × List ListElement} (hin : row ∈ c.rows) (hheld : row.1 = true)
    (hopen : c.most = none → row.2.length < 2 ^ 32) : c.listRows.Fit row.2.length := by
  have hcount : ∀ bound width, boundedList c.ty = some (bound, width) →
      row.2.length ≤ bound ∧ bound < 2 ^ 32 := by
    intro bound width hbounded
    cases hmost : c.most with
    | none =>
        rw [ty, hmost] at hbounded
        cases hbounded
    | some most =>
        rw [checkDeclared, hmost] at hcheck
        have hle := checkRows_ok c hcheck row hin hheld
        rw [ty, hmost, columnType, boundedList] at hbounded
        split at hbounded
        case isTrue =>
          obtain ⟨w, -, heq⟩ := Option.map_eq_some_iff.1 hbounded
          obtain rfl : most.toNat = bound := congrArg Prod.fst heq
          exact ⟨hle, most.toNat_lt⟩
        case isFalse => cases hbounded
  have hall : row.2.length < 2 ^ 32 := by
    cases hmost : c.most with
    | none => exact hopen hmost
    | some most =>
        rw [checkDeclared, hmost] at hcheck
        exact (checkRows_ok c hcheck row hin hheld).trans_lt most.toNat_lt
  rw [listRows, fixedLen]
  cases hbounded : boundedList c.ty with
  | none =>
      simp only [countWidth, hbounded]
      exact ⟨Or.inr (Or.inr rfl), hall⟩
  | some pair =>
      obtain ⟨bound, width⟩ := pair
      obtain ⟨hle, hlt⟩ := hcount bound width hbounded
      simp only
      by_cases hfull : (c.rows.all fun row => !row.1 || row.2.length = bound) = true
      · rw [if_pos hfull]
        have hrow := List.all_eq_true.1 hfull row hin
        rw [hheld] at hrow
        simp only [Bool.not_true, Bool.false_or, decide_eq_true_eq] at hrow
        exact ⟨hrow.symm, hall⟩
      · rw [if_neg hfull]
        simp only [countWidth, hbounded]
        split
        case isTrue hbyte => exact ⟨Or.inl rfl, by omega⟩
        case isFalse =>
          split
          case isTrue hhalf => exact ⟨Or.inr (Or.inl rfl), by omega⟩
          case isFalse => exact ⟨Or.inr (Or.inr rfl), hall⟩

end ListColumn

/-! ### What holds of the rows -/

/-- What may be asked of list rows: that a row is read back, and a row of an older file; that
the rows of a column are; and that nothing else is read. -/
inductive RowLaw
  | trip (elem : LogicalType) (rows : ListRows) (items : List ListElement)
  | older (elem : LogicalType) (items : List ListElement)
  | column (name : String) (c : ListColumn)
  | other (elem : LogicalType) (rows : ListRows) (bytes : Bytes)

namespace RowLaw

/-- What is asked of: elements that the type holds, as many as the count has room for. -/
def Stated : RowLaw → Prop
  | trip elem rows items => rows.Fit items.length ∧ ∀ item ∈ items, Admits elem item
  | older elem items => items.length < 2 ^ 32 ∧ (olderRow items).length < 2 ^ 63 ∧
      ∀ item ∈ items, Admits elem item
  | column name c => c.checkDeclared name = .ok () ∧ ∀ row ∈ c.rows, row.1 = true →
      (c.most = none → row.2.length < 2 ^ 32) ∧ ∀ item ∈ row.2, Admits (listElem c.elem) item
  | other _ rows bytes => rows.Named ∧ bytes.length < 2 ^ 63

/-- What is written is read back, and what is read was written. -/
def Holds : RowLaw → Prop
  | trip elem rows items => ∃ bytes, encodeListRow elem items rows = .ok bytes ∧
      listElements elem bytes rows = .ok items
  | older elem items => listElements elem (olderRow items) (.counted 4) = .ok items
  | column _ c => ∀ row ∈ c.rows, row.1 = true → ∃ bytes, c.encodeRow row = .ok bytes ∧
      listElements (listElem c.elem) bytes c.listRows = .ok row.2
  | other elem rows bytes => Calm (listElements elem bytes rows) ∧
      ∀ items, listElements elem bytes rows = .ok items → Written elem rows bytes items

/-- Every length fits its four bytes and every row memory; and no elements are stretched. -/
def Room : RowLaw → Prop
  | trip elem rows items => RowRoom elem rows items
  | older _ items => (∀ b, .blob b ∈ items → b.length < 2 ^ 32)
  | column _ c => ∀ row ∈ c.rows, row.1 = true → RowRoom (listElem c.elem) c.listRows row.2
  | other elem rows bytes => ¬ Stretched elem rows bytes

/-- List rows are read as they were written, and nothing else is, exactly where there is room. -/
theorem holds_iff_room (law : RowLaw) (h : law.Stated) : law.Holds ↔ law.Room := by
  cases law with
  | trip elem rows items =>
      obtain ⟨hfit, hadmits⟩ := h
      constructor
      · rintro ⟨bytes, hwrite, hread⟩
        exact room_of_trip hwrite hread
      · exact trip_of_room hfit hadmits
  | older elem items =>
      obtain ⟨hcount, hsize, hadmits⟩ := h
      constructor
      · intro hread b hb
        obtain ⟨-, lane, -, -, -, -, -, hsuits, -⟩ := listElements_suits hread
        have hsuit := hsuits _ hb
        cases lane with
        | none => exact hsuit
        | some lane => exact absurd hsuit id
      · exact fun hblobs => listElements_older hcount hadmits hblobs hsize
  | column name c =>
      obtain ⟨hcheck, hrows⟩ := h
      have hwritten : ∀ row ∈ c.rows, row.1 = true →
          c.encodeRow row = encodeListRow (listElem c.elem) row.2 c.listRows := by
        intro row _ hheld
        rw [ListColumn.encodeRow]
        split
        · rw [hheld, if_pos rfl]
        · rfl
      constructor
      · intro hread row hin hheld
        obtain ⟨bytes, hwrite, hback⟩ := hread row hin hheld
        rw [hwritten row hin hheld] at hwrite
        exact room_of_trip hwrite hback
      · intro hroom row hin hheld
        obtain ⟨hopen, hadmits⟩ := hrows row hin hheld
        rw [hwritten row hin hheld]
        exact trip_of_room (c.listRows_fit hcheck hin hheld hopen) hadmits (hroom row hin hheld)
  | other elem rows bytes =>
      obtain ⟨hnamed, hlen⟩ := h
      constructor
      · rintro ⟨-, hall⟩ hstretched
        obtain ⟨items, hread, hnot⟩ := not_written_of_stretched hnamed hlen hstretched
        exact hnot (hall items hread)
      · intro hroom
        exact ⟨calm_listElements hnamed hlen, fun items => written_of_read hnamed hlen hroom⟩

/-- Two small numbers behind a count of one byte. -/
theorem two_bytes_hold :
    (trip (.int true .b8 none) (.counted 1) [.word 5, .word (-3)]).Stated ∧
      (trip (.int true .b8 none) (.counted 1) [.word 5, .word (-3)]).Holds := by
  have hstated : (trip (.int true .b8 none) (.counted 1) [.word 5, .word (-3)]).Stated := by
    refine ⟨⟨Or.inl rfl, by decide⟩, ?_⟩
    intro item hitem
    simp only [List.mem_cons, List.not_mem_nil, or_false] at hitem
    rcases hitem with rfl | rfl
    · exact (by decide : fitsWidth 5 1 true = true)
    · exact (by decide : fitsWidth (-3) 1 true = true)
  refine ⟨hstated, (holds_iff_room _ hstated).2 ⟨fun b hb => ?_, by decide⟩⟩
  simp at hb

/-- A string of four gibibytes is written behind a length of nought, and a byte is read out of
eight behind a count of one. -/
theorem not_every_holds :
    ((trip (.str none none false) (.counted 4) [.blob (zeros (2 ^ 32))]).Stated ∧
        ¬ (trip (.str none none false) (.counted 4) [.blob (zeros (2 ^ 32))]).Holds) ∧
      (other (.int true .b8 none) (.counted 1) [1, 44, 1, 0, 0, 0, 0, 0, 0]).Stated ∧
        ¬ (other (.int true .b8 none) (.counted 1) [1, 44, 1, 0, 0, 0, 0, 0, 0]).Holds := by
  refine ⟨⟨⟨⟨Or.inr (Or.inr rfl), by simp⟩, ?_⟩, ?_⟩, ⟨Or.inl rfl, by simp⟩, ?_⟩
  · intro item hitem
    rw [List.mem_singleton.1 hitem]
    trivial
  · rintro ⟨bytes, hwrite, hread⟩
    have hlt := (room_of_trip hwrite hread).1 (zeros (2 ^ 32)) (List.mem_singleton.2 rfl)
    rw [length_zeros] at hlt
    exact absurd hlt (Nat.lt_irrefl _)
  · rintro ⟨-, hall⟩
    have hnamed : (ListRows.counted 1).Named := Or.inl rfl
    have hstretched : Stretched (.int true .b8 none) (.counted 1) [1, 44, 1, 0, 0, 0, 0, 0, 0] :=
      ⟨1, true, rfl, by decide, by decide, by decide, by decide, Or.inl (by decide)⟩
    obtain ⟨items, hread, hnot⟩ := not_written_of_stretched hnamed (by simp) hstretched
    exact hnot (hall items hread)

end RowLaw

end Zu.Props
