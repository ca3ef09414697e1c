import Zu.Lib.Fallible
import Zu.Props.ListRow

/-!
# A list row is read back

What a row's bytes say is what was written, as long as every length fits its four bytes;
and what is read was written, in the form of today or of an older file, but for rows whose
elements take eight bytes where no file has them.
-/

namespace Zu.Props

open Lib Schema Checked

/-! ### Elements -/

theorem take_leBytes {k n : ℕ} (h : k ≤ n) (x : ℕ) : (leBytes n x).take k = leBytes k x := by
  induction k generalizing n x with
  | zero => rfl
  | succ k ih =>
      cases n with
      | zero => exact absurd h (Nat.not_succ_le_zero k)
      | succ n =>
          rw [leBytes, leBytes, List.take_succ_cons, ih (Nat.le_of_succ_le_succ h)]

theorem pow_bytes (width : ℕ) : 256 ^ width = 2 ^ (width * 8) := by
  rw [Nat.mul_comm, Nat.pow_mul]

theorem fitsWidth_iff {w : Word} {width : ℕ} {signed : Bool} (hsign : width = 8 → signed = false)
    (hw : width ≤ 8) : fitsWidth w width signed = true ↔ FitsBits (width * 8) signed w := by
  rw [fitsWidth, FitsBits]
  by_cases hwide : 8 ≤ width
  · have h8 : width = 8 := Nat.le_antisymm hw hwide
    rw [if_pos hwide, h8, hsign h8]
    simp only [Bool.false_eq_true, if_false, true_iff]
    exact w.isLt
  · rw [if_neg hwide]
    cases signed with
    | true => simp [signExtend]
    | false =>
        simp only [Bool.false_eq_true, if_false, decide_eq_true_eq]
        have hzero : (0 : Word).toNat = 0 := rfl
        rw [← BitVec.toNat_inj, BitVec.toNat_ushiftRight, Nat.shiftRight_eq_div_pow, hzero,
          Nat.div_eq_zero_iff]
        simp

/-- An element in a lane, or behind its length. -/
def putElement : Option (ℕ × Bool) → ListElement → Bytes
  | some (width, _), .word w => leBytes width w.toNat
  | none, .blob b => leBytes 4 b.length ++ b
  | _, _ => []

/-- What is written of an element says all of it. -/
def Suits : Option (ℕ × Bool) → ListElement → Prop
  | some (width, signed), .word w => FitsBits (width * 8) signed w
  | none, .blob b => b.length < 2 ^ 32
  | _, _ => False

/-- A lane of one to eight bytes; of fewer, where it has a sign. -/
def LaneOk : Option (ℕ × Bool) → Prop
  | some (width, signed) => 0 < width ∧ width ≤ 8 ∧ (width = 8 → signed = false)
  | none => True

theorem laneOk (elem : LogicalType) : LaneOk (laneWidth elem) := by
  cases h : laneWidth elem with
  | none => trivial
  | some lane => exact laneWidth_spec h

theorem between_ok {bytes : Bytes} {pos len : ℕ} {detail : String} (hlen : bytes.length < 2 ^ 63)
    (h : pos + len ≤ bytes.length) :
    between bytes pos len detail = .ok ((bytes.drop pos).take len) := by
  rw [between, word_of_lt (by omega), ok_bind, if_neg (Nat.not_lt.2 h)]

theorem between_spec {bytes raw : Bytes} {pos len : ℕ} {detail : String}
    (h : between bytes pos len detail = .ok raw) :
    pos + len ≤ bytes.length ∧ raw = (bytes.drop pos).take len ∧ raw.length = len := by
  rw [between] at h
  by_cases hword : pos + len < 2 ^ 64
  · rw [word_of_lt hword, ok_bind] at h
    split at h
    case isTrue => cases h
    case isFalse hle =>
      have hraw : raw = (bytes.drop pos).take len := (Except.ok.inj h).symm
      refine ⟨Nat.not_lt.1 hle, hraw, ?_⟩
      rw [hraw, List.length_take, List.length_drop]
      omega
  · rw [word, if_neg hword] at h
    cases h

theorem calm_between {bytes : Bytes} {pos len : ℕ} {detail : String} (h : pos + len < 2 ^ 64) :
    Calm (between bytes pos len detail) := by
  rw [between, word_of_lt h, ok_bind]
  split
  · exact calm_refuse _
  · exact calm_ok _

/-- A part of a string of bytes that starts where another ends. -/
theorem take_between (front part back : Bytes) {k : ℕ} (hk : part.length = k) :
    ((front ++ (part ++ back)).drop front.length).take k = part := by
  rw [List.drop_left, List.take_left' hk]

theorem widened {width : ℕ} {signed : Bool} (hlane : LaneOk (some (width, signed))) (n : ℕ) :
    (if signed ∧ width < 8 then
      (BitVec.ofNat 64 n <<< (64 - width * 8)).sshiftRight (64 - width * 8)
    else BitVec.ofNat 64 n) = widen (width * 8) signed n := by
  rw [widen]
  cases signed with
  | false => simp
  | true =>
      have hlt : width < 8 := by
        refine lt_of_le_of_ne hlane.2.1 fun h8 => ?_
        have := hlane.2.2 h8
        cases this
      rw [if_pos ⟨rfl, hlt⟩, if_pos rfl, signExtend]

theorem readElement_put {lane : Option (ℕ × Bool)} (hlane : LaneOk lane) {item : ListElement}
    (h : Suits lane item) (front back : Bytes)
    (hlen : (front ++ (putElement lane item ++ back)).length < 2 ^ 63) :
    readElement (front ++ (putElement lane item ++ back)) lane front.length =
      .ok (item, front.length + (putElement lane item).length) := by
  cases lane with
  | some lane =>
      obtain ⟨width, signed⟩ := lane
      cases item with
      | blob b => exact absurd h id
      | word w =>
          have hfit : front.length + width ≤
              (front ++ (putElement (some (width, signed)) (.word w) ++ back)).length := by
            simp only [putElement, List.length_append, length_leBytes]
            omega
          have hbits : width * 8 ≤ 64 := by
            have := hlane.2.1
            omega
          rw [readElement, between_ok hlen hfit, ok_bind]
          simp only [putElement]
          rw [take_between front _ back (length_leBytes width w.toNat), fromLe_leBytes, pow_bytes,
            widened hlane, widen_cut hbits h, length_leBytes]
  | none =>
      cases item with
      | word w => exact absurd h id
      | blob b =>
          simp only [putElement] at hlen ⊢
          have hfit : front.length + 4 ≤ (front ++ (leBytes 4 b.length ++ b ++ back)).length := by
            simp only [List.length_append, length_leBytes]
            omega
          have hsplit : front ++ (leBytes 4 b.length ++ b ++ back) =
              (front ++ leBytes 4 b.length) ++ (b ++ back) := by
            simp only [List.append_assoc]
          have hfront : front.length + 4 = (front ++ leBytes 4 b.length).length := by
            rw [List.length_append, length_leBytes]
          have hfit' : front.length + 4 + b.length ≤
              (front ++ (leBytes 4 b.length ++ b ++ back)).length := by
            simp only [List.length_append, length_leBytes]
            omega
          have hcount : fromLe (leBytes 4 b.length) = b.length := fromLe_leBytes_of_lt h
          have hfirst : ((front ++ (leBytes 4 b.length ++ b ++ back)).drop front.length).take 4 =
              leBytes 4 b.length := by
            rw [List.append_assoc (leBytes 4 b.length)]
            exact take_between front _ _ (length_leBytes 4 b.length)
          rw [readElement, between_ok hlen hfit, ok_bind]
          simp only [hfirst, hcount]
          rw [between_ok hlen hfit', ok_bind]
          have hbody : ((front ++ (leBytes 4 b.length ++ b ++ back)).drop (front.length + 4)).take
              b.length = b := by
            rw [hsplit, hfront]
            exact take_between _ b back rfl
          rw [hbody, List.length_append, length_leBytes, Nat.add_assoc]

theorem readElements_put {lane : Option (ℕ × Bool)} (hlane : LaneOk lane) {items : List ListElement}
    (h : ∀ item ∈ items, Suits lane item) (front : Bytes)
    (hlen : (front ++ items.flatMap (putElement lane)).length < 2 ^ 63) :
    readElements (front ++ items.flatMap (putElement lane)) lane items.length front.length =
      .ok (items, (front ++ items.flatMap (putElement lane)).length) := by
  induction items generalizing front with
  | nil => simp [readElements]
  | cons item items ih =>
      rw [List.flatMap_cons] at hlen ⊢
      have hfirst := readElement_put hlane (h item List.mem_cons_self) front
        (items.flatMap (putElement lane)) hlen
      have hassoc : front ++ (putElement lane item ++ items.flatMap (putElement lane)) =
          (front ++ putElement lane item) ++ items.flatMap (putElement lane) :=
        (List.append_assoc _ _ _).symm
      have hrest := ih (fun i hi => h i (List.mem_cons_of_mem item hi))
        (front ++ putElement lane item) (by rwa [← hassoc])
      rw [← hassoc, List.length_append] at hrest
      rw [List.length_cons, readElements, hfirst, ok_bind, hrest]
      rfl

theorem readElement_spec {bytes : Bytes} {lane : Option (ℕ × Bool)} (hlane : LaneOk lane) {pos stop : ℕ}
    {item : ListElement} (h : readElement bytes lane pos = .ok (item, stop)) :
    pos ≤ stop ∧ stop ≤ bytes.length ∧ Suits lane item ∧
      (bytes.drop pos).take (stop - pos) = putElement lane item := by
  cases lane with
  | some lane =>
      obtain ⟨width, signed⟩ := lane
      have hbits : width * 8 ≤ 64 := by
        have := hlane.2.1
        omega
      rw [readElement] at h
      obtain ⟨raw, hraw, hout⟩ := except_bind_ok.1 h
      obtain ⟨hle, hval, hlen⟩ := between_spec hraw
      simp only [widened hlane, Except.ok.injEq, Prod.mk.injEq] at hout
      obtain ⟨rfl, rfl⟩ := hout
      have hlt : fromLe raw < 2 ^ (width * 8) := by
        have := fromLe_lt raw
        rwa [hlen, pow_bytes] at this
      refine ⟨Nat.le_add_right _ _, hle, fits_widen signed hlt, ?_⟩
      rw [Nat.add_sub_cancel_left, ← hval, putElement]
      have hcut := cut_widen hbits signed hlt
      have hbytes : leBytes width (widen (width * 8) signed (fromLe raw)).toNat =
          leBytes width (fromLe raw) := by
        have hleft := leBytes_fromLe_of_length (length_leBytes width
          (widen (width * 8) signed (fromLe raw)).toNat)
        rw [fromLe_leBytes, pow_bytes, hcut] at hleft
        exact hleft.symm
      rw [hbytes, leBytes_fromLe_of_length hlen]
  | none =>
      rw [readElement] at h
      obtain ⟨raw, hraw, h⟩ := except_bind_ok.1 h
      obtain ⟨body, hbody, hout⟩ := except_bind_ok.1 h
      obtain ⟨hle, hval, hlen⟩ := between_spec hraw
      obtain ⟨hle', hval', hlen'⟩ := between_spec hbody
      simp only [Except.ok.injEq, Prod.mk.injEq] at hout
      obtain ⟨rfl, rfl⟩ := hout
      have hlt : fromLe raw < 2 ^ 32 := by
        have := fromLe_lt raw
        rw [hlen] at this
        exact this
      refine ⟨by omega, hle', ?_, ?_⟩
      · rw [Suits, hlen']
        exact hlt
      · have hstop : pos + 4 + fromLe raw - pos = 4 + fromLe raw := by omega
        rw [hstop, putElement, hlen', List.take_add, ← hval, List.drop_drop, ← hval',
          leBytes_fromLe_of_length hlen]

theorem readElements_spec {bytes : Bytes} {lane : Option (ℕ × Bool)} (hlane : LaneOk lane)
    {count pos stop : ℕ} {items : List ListElement} (hpos : pos ≤ bytes.length)
    (h : readElements bytes lane count pos = .ok (items, stop)) :
    pos ≤ stop ∧ stop ≤ bytes.length ∧ items.length = count ∧ (∀ item ∈ items, Suits lane item) ∧
      (bytes.drop pos).take (stop - pos) = items.flatMap (putElement lane) := by
  induction count generalizing pos items with
  | zero =>
      simp only [readElements, Except.ok.injEq, Prod.mk.injEq] at h
      obtain ⟨rfl, rfl⟩ := h
      refine ⟨Nat.le_refl _, hpos, rfl, by simp, by simp⟩
  | succ count ih =>
      rw [readElements] at h
      obtain ⟨⟨item, mid⟩, hfirst, h⟩ := except_bind_ok.1 h
      obtain ⟨⟨rest, stop'⟩, hrest, hout⟩ := except_bind_ok.1 h
      simp only [Except.ok.injEq, Prod.mk.injEq] at hout
      obtain ⟨rfl, rfl⟩ := hout
      obtain ⟨hle, hmid, hsuits, hput⟩ := readElement_spec hlane hfirst
      obtain ⟨hle', hstop, hcount, hall, hputs⟩ := ih hmid hrest
      refine ⟨hle.trans hle', hstop, congrArg (· + 1) hcount, ?_, ?_⟩
      · rw [List.forall_mem_cons]
        exact ⟨hsuits, hall⟩
      · have hsplit : stop' - pos = (mid - pos) + (stop' - mid) := by omega
        have hmid' : pos + (mid - pos) = mid := by omega
        rw [hsplit, List.take_add, hput, List.drop_drop, hmid', hputs, List.flatMap_cons]

theorem calm_readElements {bytes : Bytes} {lane : Option (ℕ × Bool)} (hlane : LaneOk lane)
    (hlen : bytes.length < 2 ^ 63) {count pos : ℕ} (hpos : pos ≤ bytes.length) :
    Calm (readElements bytes lane count pos) := by
  induction count generalizing pos with
  | zero => exact calm_ok _
  | succ count ih =>
      rw [readElements]
      refine Calm.bind ?_ fun first hfirst => ?_
      · cases lane with
        | some lane =>
            obtain ⟨width, signed⟩ := lane
            have := hlane.2.1
            rw [readElement]
            exact (calm_between (by omega)).bind fun raw _ => calm_ok _
        | none =>
            rw [readElement]
            refine (calm_between (by omega)).bind fun raw hraw => ?_
            have hlt : fromLe raw < 2 ^ 32 := by
              have := fromLe_lt raw
              rw [(between_spec hraw).2.2] at this
              exact this
            exact (calm_between (by omega)).bind fun body _ => calm_ok _
      · have hmid := (readElement_spec hlane (show readElement bytes lane pos =
          .ok (first.1, first.2) from hfirst)).2.1
        exact (ih hmid).bind fun rest _ => calm_ok _

end Zu.Props
