import Mathlib

/-!
# Text

A text is a list of characters. How it is trimmed, split, and read as an integer.
-/

namespace Zu

namespace Lib

abbrev Text := List Char

/-- The characters that Unicode counts as white space. -/
def isWhitespace (c : Char) : Bool :=
  (9 ≤ c.toNat && c.toNat ≤ 13) || (0x2000 ≤ c.toNat && c.toNat ≤ 0x200A) ||
    [0x20, 0x85, 0xA0, 0x1680, 0x2028, 0x2029, 0x202F, 0x205F, 0x3000].contains c.toNat

def trim (text : Text) : Text :=
  ((text.dropWhile isWhitespace).reverse.dropWhile isWhitespace).reverse

def splitOnce (p : Char → Bool) : Text → Option (Text × Text)
  | [] => none
  | c :: cs => if p c then some ([], cs) else (splitOnce p cs).map fun s => (c :: s.1, s.2)

def isDigit (c : Char) : Bool := 48 ≤ c.toNat && c.toNat ≤ 57

def digitOf (c : Char) : ℕ := c.toNat - 48

/-- The number that digits write after those of `acc`. -/
def valueFrom : Text → ℕ → ℕ
  | [], acc => acc
  | c :: cs, acc => valueFrom cs (acc * 10 + digitOf c)

def valueOf (digits : Text) : ℕ := valueFrom digits 0

/-- A run of one digit or more. -/
def readNat (text : Text) : Option ℕ :=
  if text ≠ [] ∧ text.all isDigit then some (valueOf text) else none

/-- An integer, with a sign or without. -/
def readInt : Text → Option ℤ
  | '-' :: text => (readNat text).map fun n : ℕ => -(n : ℤ)
  | '+' :: text => (readNat text).map fun n : ℕ => (n : ℤ)
  | text => (readNat text).map fun n : ℕ => (n : ℤ)

def byteLen (text : Text) : ℕ := (text.map Char.utf8Size).sum

/-- A text cut at a byte, where a character starts there. -/
def splitBytes : Text → ℕ → Option (Text × Text)
  | [], n => if n = 0 then some ([], []) else none
  | c :: cs, n =>
      if n = 0 then some ([], c :: cs)
      else if c.utf8Size ≤ n then
        (splitBytes cs (n - c.utf8Size)).map fun s => (c :: s.1, s.2)
      else none

/-- `str::split`. -/
def splitAll (p : Char → Bool) : Text → List Text
  | [] => [[]]
  | c :: cs =>
      if p c then [] :: splitAll p cs
      else
        match splitAll p cs with
        | [] => [[c]]
        | part :: parts => (c :: part) :: parts

theorem le_valueFrom (digits : Text) (acc : ℕ) : acc ≤ valueFrom digits acc := by
  induction digits generalizing acc with
  | nil => exact le_rfl
  | cons c cs ih => exact le_trans (by omega) (ih _)

@[simp] theorem byteLen_nil : byteLen [] = 0 := rfl

@[simp] theorem byteLen_cons (c : Char) (cs : Text) :
    byteLen (c :: cs) = c.utf8Size + byteLen cs := by
  simp [byteLen]

theorem byteLen_append (a b : Text) : byteLen (a ++ b) = byteLen a + byteLen b := by
  simp [byteLen]

theorem length_le_byteLen (text : Text) : text.length ≤ byteLen text := by
  induction text with
  | nil => exact le_rfl
  | cons c cs ih =>
      have := c.utf8Size_pos
      rw [byteLen_cons, List.length_cons]
      omega

/-- A text is cut where its first part ends. -/
theorem splitBytes_append (a b : Text) : splitBytes (a ++ b) (byteLen a) = some (a, b) := by
  induction a with
  | nil =>
      cases b with
      | nil => rfl
      | cons c cs => rfl
  | cons c cs ih =>
      have hc := c.utf8Size_pos
      rw [List.cons_append, byteLen_cons, splitBytes, if_neg (by omega), if_pos (by omega),
        Nat.add_sub_cancel_left, ih]
      rfl

theorem splitBytes_eq_some {text a b : Text} {n : ℕ} :
    splitBytes text n = some (a, b) ↔ text = a ++ b ∧ byteLen a = n := by
  constructor
  · intro h
    induction text generalizing n a with
    | nil =>
        rw [splitBytes] at h
        split at h
        case isTrue hn =>
          cases h
          exact ⟨rfl, hn.symm⟩
        case isFalse => cases h
    | cons c cs ih =>
        rw [splitBytes] at h
        split at h
        case isTrue hn =>
          cases h
          exact ⟨rfl, hn.symm⟩
        case isFalse hn =>
          split at h
          case isFalse => cases h
          case isTrue hle =>
            cases hcut : splitBytes cs (n - c.utf8Size) with
            | none =>
                rw [hcut] at h
                cases h
            | some s =>
                rw [hcut] at h
                cases h
                obtain ⟨hcs, hlen⟩ := ih hcut
                rw [byteLen_cons, hlen, hcs]
                exact ⟨rfl, by omega⟩
  · rintro ⟨rfl, rfl⟩
    exact splitBytes_append a b

theorem digitOf_lt {c : Char} (h : isDigit c = true) : digitOf c < 10 := by
  rw [isDigit, Bool.and_eq_true, decide_eq_true_iff, decide_eq_true_iff] at h
  rw [digitOf]
  omega

theorem valueFrom_lt {digits : Text} (h : digits.all isDigit = true) (acc : ℕ) :
    valueFrom digits acc < (acc + 1) * 10 ^ digits.length := by
  induction digits generalizing acc with
  | nil => simp [valueFrom]
  | cons c cs ih =>
      rw [List.all_cons, Bool.and_eq_true] at h
      have hc := digitOf_lt h.1
      have hlt := ih h.2 (acc * 10 + digitOf c)
      have hle : (acc * 10 + digitOf c + 1) * 10 ^ cs.length ≤ (acc + 1) * 10 * 10 ^ cs.length :=
        Nat.mul_le_mul_right _ (by omega)
      rw [valueFrom, List.length_cons, pow_succ, mul_comm (10 ^ cs.length), ← mul_assoc]
      exact hlt.trans_le hle

/-- Digits write a number of as many digits. -/
theorem valueOf_lt {digits : Text} (h : digits.all isDigit = true) :
    valueOf digits < 10 ^ digits.length := by
  have := valueFrom_lt h 0
  rwa [zero_add, one_mul] at this

theorem isDigit_not_sign {c : Char} (h : isDigit c = true) : c ≠ '-' ∧ c ≠ '+' := by
  constructor
  · rintro rfl
    exact absurd h (by decide)
  · rintro rfl
    exact absurd h (by decide)

/-- Digits alone are read as the number they write. -/
theorem readInt_digits {digits : Text} (hne : digits ≠ []) (h : digits.all isDigit = true) :
    readInt digits = some (valueOf digits : ℤ) := by
  have hnat : readNat digits = some (valueOf digits) := if_pos ⟨hne, h⟩
  cases digits with
  | nil => exact absurd rfl hne
  | cons c cs =>
      rw [List.all_cons, Bool.and_eq_true] at h
      have hc := isDigit_not_sign h.1
      rw [readInt]
      · rw [hnat]
        rfl
      · rintro text ⟨⟩
        exact hc.1 rfl
      · rintro text ⟨⟩
        exact hc.2 rfl

/-- A text with no minus in it is no negative number. -/
theorem readInt_nonneg {text : Text} {n : ℤ} (h : readInt text = some n) (hminus : '-' ∉ text) :
    0 ≤ n := by
  rw [readInt.eq_def] at h
  split at h
  · exact absurd List.mem_cons_self hminus
  · obtain ⟨k, -, rfl⟩ := Option.map_eq_some_iff.1 h
    exact Int.natCast_nonneg k
  · obtain ⟨k, -, rfl⟩ := Option.map_eq_some_iff.1 h
    exact Int.natCast_nonneg k

theorem splitOnce_append {p : Char → Bool} {text : Text} {s : Text × Text}
    (h : splitOnce p text = some s) : ∃ c, p c = true ∧ text = s.1 ++ c :: s.2 := by
  induction text generalizing s with
  | nil => cases h
  | cons c cs ih =>
      rw [splitOnce] at h
      split at h
      case isTrue hc =>
        cases h
        exact ⟨c, hc, rfl⟩
      case isFalse =>
        obtain ⟨t, ht, rfl⟩ := Option.map_eq_some_iff.1 h
        obtain ⟨d, hd, rfl⟩ := ih ht
        exact ⟨d, hd, rfl⟩

theorem mem_of_mem_splitAll {p : Char → Bool} {text part : Text} {c : Char}
    (h : part ∈ splitAll p text) (hc : c ∈ part) : c ∈ text := by
  induction text generalizing part with
  | nil =>
      rw [splitAll, List.mem_singleton] at h
      rw [h] at hc
      cases hc
  | cons d ds ih =>
      rw [splitAll] at h
      split at h
      case isTrue =>
        rcases List.mem_cons.1 h with rfl | h
        · cases hc
        · exact List.mem_cons_of_mem d (ih h hc)
      case isFalse =>
        split at h
        case h_1 =>
          rw [List.mem_singleton] at h
          rw [h] at hc
          exact List.mem_cons.2 (Or.inl (List.mem_singleton.1 hc))
        case h_2 first parts hparts =>
          rw [hparts] at ih
          rcases List.mem_cons.1 h with rfl | h
          · rcases List.mem_cons.1 hc with rfl | hc
            · exact List.mem_cons_self
            · exact List.mem_cons_of_mem d (ih List.mem_cons_self hc)
          · exact List.mem_cons_of_mem d (ih (List.mem_cons_of_mem first h) hc)

end Lib

end Zu

/-!
## Numerals

Numbers written in decimal, padded with zeros or not, and what is read from them.
-/

namespace Zu

namespace Lib

def showNat (n : ℕ) : Text := Nat.toDigits 10 n

/-- A number in decimal, of at least `width` digits. -/
def padded (width n : ℕ) : Text :=
  List.replicate (width - (showNat n).length) '0' ++ showNat n

/-- A text of digits that is not empty. -/
def Numeric (text : Text) : Prop := text ≠ [] ∧ text.all isDigit = true

theorem valueFrom_eq (digits : Text) (acc : ℕ) :
    valueFrom digits acc = Nat.ofDigitChars 10 digits acc := by
  induction digits generalizing acc with
  | nil => rfl
  | cons c cs ih =>
      rw [valueFrom, ih, Nat.ofDigitChars_cons, mul_comm]
      rfl

theorem numeric_showNat (n : ℕ) : Numeric (showNat n) := by
  refine ⟨Nat.toDigits_ne_nil, List.all_eq_true.2 fun c hc => ?_⟩
  have hdigit := Nat.isDigit_of_mem_toDigits (by decide) (by decide) hc
  rw [Char.isDigit, Bool.and_eq_true, decide_eq_true_iff, decide_eq_true_iff] at hdigit
  rw [isDigit, Bool.and_eq_true, decide_eq_true_iff, decide_eq_true_iff]
  exact hdigit

theorem valueOf_showNat (n : ℕ) : valueOf (showNat n) = n := by
  rw [valueOf, valueFrom_eq]
  exact Nat.ofDigitChars_ten_toDigits

theorem numeric_padded (width n : ℕ) : Numeric (padded width n) := by
  obtain ⟨hne, hall⟩ := numeric_showNat n
  constructor
  · exact List.append_ne_nil_of_right_ne_nil _ hne
  · rw [padded, List.all_append, hall, Bool.and_true, List.all_eq_true]
    intro c hc
    rw [List.eq_of_mem_replicate hc]
    rfl

/-- Zeros in front of a number leave it as it is. -/
theorem valueOf_padded (width n : ℕ) : valueOf (padded width n) = n := by
  rw [valueOf, valueFrom_eq, padded, Nat.ofDigitChars_append, Nat.ofDigitChars_replicate_zero,
    Nat.mul_zero, ← valueFrom_eq]
  exact valueOf_showNat n

theorem length_padded {width n : ℕ} (hw : 0 < width) (h : n < 10 ^ width) :
    (padded width n).length = width := by
  have hle : (showNat n).length ≤ width := (Nat.length_toDigits_le_iff (by decide) hw).2 h
  rw [padded, List.length_append, List.length_replicate]
  omega

theorem Numeric.byteLen {text : Text} (h : text.all isDigit = true) :
    byteLen text = text.length := by
  induction text with
  | nil => rfl
  | cons c cs ih =>
      rw [List.all_cons, Bool.and_eq_true] at h
      have hsize : c.utf8Size = 1 := by
        have hc := h.1
        rw [isDigit, Bool.and_eq_true, decide_eq_true_iff, decide_eq_true_iff] at hc
        have hle : c.val ≤ 127 := by
          rw [UInt32.le_iff_toNat_le]
          exact hc.2.trans (by decide)
        exact if_pos hle
      rw [byteLen_cons, hsize, ih h.2, List.length_cons]
      omega

theorem Numeric.readInt {text : Text} (h : Numeric text) :
    Lib.readInt text = some (valueOf text : ℤ) := readInt_digits h.1 h.2

/-- A character that is no digit is not in a number. -/
theorem Numeric.not_mem {text : Text} (h : Numeric text) {c : Char} (hc : isDigit c = false) :
    c ∉ text := fun hmem => by
  have := List.all_eq_true.1 h.2 c hmem
  rw [hc] at this
  cases this

/-! ### Cutting what is written -/

variable {p : Char → Bool} {a b : Text} {c : Char}

/-- A text is split at the first character that is asked for. -/
theorem splitOnce_of_none (ha : ∀ d ∈ a, p d = false) (hc : p c = true) :
    splitOnce p (a ++ c :: b) = some (a, b) := by
  induction a with
  | nil => rw [List.nil_append, splitOnce, if_pos hc]
  | cons d a ih =>
      have hd := ha d List.mem_cons_self
      rw [List.cons_append, splitOnce, hd, if_neg Bool.false_ne_true,
        ih fun e he => ha e (List.mem_cons_of_mem d he)]
      rfl

theorem splitOnce_eq_none (ha : ∀ d ∈ a, p d = false) : splitOnce p a = none := by
  induction a with
  | nil => rfl
  | cons d a ih =>
      have hd := ha d List.mem_cons_self
      rw [splitOnce, hd, if_neg Bool.false_ne_true,
        ih fun e he => ha e (List.mem_cons_of_mem d he)]
      rfl

theorem splitAll_of_none (ha : ∀ d ∈ a, p d = false) : splitAll p a = [a] := by
  induction a with
  | nil => rfl
  | cons d a ih =>
      have hd := ha d List.mem_cons_self
      rw [splitAll, hd, if_neg Bool.false_ne_true,
        ih fun e he => ha e (List.mem_cons_of_mem d he)]

theorem splitAll_append (ha : ∀ d ∈ a, p d = false) (hc : p c = true) :
    splitAll p (a ++ c :: b) = a :: splitAll p b := by
  induction a with
  | nil => rw [List.nil_append, splitAll, if_pos hc]
  | cons d a ih =>
      have hd := ha d List.mem_cons_self
      rw [List.cons_append, splitAll, hd, if_neg Bool.false_ne_true,
        ih fun e he => ha e (List.mem_cons_of_mem d he)]

theorem dropWhile_of_none {text : Text} (h : ∀ d ∈ text, p d = false) :
    text.dropWhile p = text := by
  cases text with
  | nil => rfl
  | cons d text => rw [List.dropWhile_cons_of_neg (by rw [h d List.mem_cons_self]; decide)]

/-- A text without white space is not trimmed. -/
theorem trim_of_none {text : Text} (h : ∀ d ∈ text, isWhitespace d = false) :
    trim text = text := by
  rw [trim, dropWhile_of_none h, dropWhile_of_none fun d hd => h d (List.mem_reverse.1 hd),
    List.reverse_reverse]

end Lib

end Zu
