import Zu.Schema.Codec

/-!
# What the reader makes of a spelled field

Every field's reader undoes its writer on what fits: a name of 1 to 256 bytes, a label
set of at most 64, a declared type none of whose bounds is the count that stands for
no bound. What a reader gives always fits, and what it read is what the writer makes
of it; the one exception is a declared type, which has more spellings than the
writer's own.
-/

namespace Zu.Schema

open Lib

/-! ### Bytes and numbers -/

theorem decodes_nextBytes (d : Bytes) (err : ZuError) :
    Decodes (nextBytes d.length err) d d := by
  intro rest
  have hlen : ¬ (d ++ rest).length < d.length := by
    rw [List.length_append]; omega
  rw [nextBytes, if_neg hlen, List.take_left, List.drop_left]

theorem nextBytes_ok {n : ℕ} {err : ZuError} {bs d rest : Bytes}
    (h : nextBytes n err bs = .ok (d, rest)) : d.length = n ∧ bs = d ++ rest := by
  rw [nextBytes] at h
  split_ifs at h with hlen
  cases h
  exact ⟨List.length_take_of_le (not_lt.1 hlen), (List.take_append_drop n bs).symm⟩

theorem decodes_nextByte (b : UInt8) (err : ZuError) : Decodes (nextByte err) [b] b :=
  fun _ => rfl

theorem nextByte_ok {err : ZuError} {bs rest : Bytes} {b : UInt8}
    (h : nextByte err bs = .ok (b, rest)) : bs = b :: rest := by
  cases bs with
  | nil => exact nomatch h
  | cons b' rest' =>
      cases h
      rfl

theorem decodes_field {k n : ℕ} (h : n < 256 ^ k) (err : ZuError) :
    Decodes (do return fromLe (← nextBytes k err)) (leBytes k n) n := by
  have hread := decodes_nextBytes (leBytes k n) err
  rw [length_leBytes] at hread
  exact hread.bind_pure (fromLe_leBytes_of_lt h)

theorem decodes_readNat {k n : ℕ} (h : n < 256 ^ k) : Decodes (readNat k) (leBytes k n) n :=
  decodes_field h _

theorem readNat_ok {k n : ℕ} {bs rest : Bytes} (h : readNat k bs = .ok (n, rest)) :
    n < 256 ^ k ∧ bs = leBytes k n ++ rest := by
  obtain ⟨d, mid, hd, h⟩ := reader_bind_ok.1 h
  cases reader_pure_ok.1 h
  obtain ⟨hlen, rfl⟩ := nextBytes_ok hd
  subst hlen
  exact ⟨fromLe_lt d, by rw [leBytes_fromLe]⟩

theorem decodes_readU16 (x : UInt16) : Decodes readU16 (leBytes 2 x.toNat) x :=
  (decodes_readNat x.toNat_lt).bind_pure (UInt16.ofNat_toNat)

theorem decodes_readU32 (x : UInt32) : Decodes readU32 (leBytes 4 x.toNat) x :=
  (decodes_readNat x.toNat_lt).bind_pure (UInt32.ofNat_toNat)

theorem decodes_readU64 (x : UInt64) : Decodes readU64 (leBytes 8 x.toNat) x :=
  (decodes_readNat x.toNat_lt).bind_pure (UInt64.ofNat_toNat)

theorem spells_readU16 : Spells readU16 fun x => leBytes 2 x.toNat := by
  intro bs x rest h
  obtain ⟨n, mid, hn, h⟩ := reader_bind_ok.1 h
  cases reader_pure_ok.1 h
  obtain ⟨hlt, rfl⟩ := readNat_ok hn
  exact congrArg (leBytes 2 · ++ rest) (UInt16.toNat_ofNat_of_lt' hlt).symm

theorem spells_readU32 : Spells readU32 fun x => leBytes 4 x.toNat := by
  intro bs x rest h
  obtain ⟨n, mid, hn, h⟩ := reader_bind_ok.1 h
  cases reader_pure_ok.1 h
  obtain ⟨hlt, rfl⟩ := readNat_ok hn
  exact congrArg (leBytes 4 · ++ rest) (UInt32.toNat_ofNat_of_lt' hlt).symm

theorem spells_readU64 : Spells readU64 fun x => leBytes 8 x.toNat := by
  intro bs x rest h
  obtain ⟨n, mid, hn, h⟩ := reader_bind_ok.1 h
  cases reader_pure_ok.1 h
  obtain ⟨hlt, rfl⟩ := readNat_ok hn
  exact congrArg (leBytes 8 · ++ rest) (UInt64.toNat_ofNat_of_lt' hlt).symm

theorem decodes_refuseIf {p : Prop} [Decidable p] (h : ¬ p) (err : ZuError) :
    Decodes (refuseIf p err) [] () := by
  rw [refuseIf, if_neg h]
  exact Decodes.pure ()

theorem refuseIf_ok {p : Prop} [Decidable p] {err : ZuError} {bs rest : Bytes} {u : Unit}
    (h : refuseIf p err bs = .ok (u, rest)) : ¬ p ∧ rest = bs := by
  rw [refuseIf] at h
  split_ifs at h with hp
  · exact (reader_throw_ok.1 h).elim
  · cases reader_pure_ok.1 h
    exact ⟨hp, rfl⟩

/-! ### Names -/

theorem ofUtf8_utf8 (s : String) : ofUtf8 (utf8 s) = some s := by
  have hbytes : (⟨(utf8 s).toArray⟩ : ByteArray) = s.toByteArray := by
    rw [utf8, Array.toArray_toList]
  rw [ofUtf8, hbytes, String.fromUTF8?, dif_pos s.isValidUTF8]
  rfl

theorem utf8_of_ofUtf8 {bs : Bytes} {s : String} (h : ofUtf8 bs = some s) : utf8 s = bs := by
  rw [ofUtf8, String.fromUTF8?] at h
  split_ifs at h with hvalid
  cases h
  rfl

/-- A name the reader takes. -/
def NameFits (s : String) : Prop := 0 < (utf8 s).length ∧ (utf8 s).length ≤ maxNameLen

instance (s : String) : Decidable (NameFits s) := inferInstanceAs (Decidable (_ ∧ _))

theorem decodes_decodeName {s : String} (h : NameFits s) :
    Decodes decodeName (encodeName s) s := by
  have hlen : (utf8 s).length < 256 ^ 2 := h.2.trans_lt (by decide)
  have hd := decodes_nextBytes (leBytes 2 (utf8 s).length) (corrupt "truncated name length")
  rw [length_leBytes] at hd
  refine hd.bind ?_
  rw [fromLe_leBytes_of_lt hlen]
  refine (decodes_refuseIf (not_or.2 ⟨h.1.ne', not_lt.2 h.2⟩) _).bind ?_
  intro rest
  refine reader_bind_ok.2 ⟨utf8 s, rest, decodes_nextBytes (utf8 s) _ rest, ?_⟩
  rw [ofUtf8_utf8]
  rfl

theorem decodeName_ok {bs rest : Bytes} {s : String} (h : decodeName bs = .ok (s, rest)) :
    NameFits s ∧ bs = encodeName s ++ rest := by
  obtain ⟨d, mid, hd, h₁⟩ := reader_bind_ok.1 h
  obtain ⟨hlen, hbs⟩ := nextBytes_ok hd
  obtain ⟨⟨⟩, mid₁, hpass, h₂⟩ := reader_bind_ok.1 h₁
  obtain ⟨hrange, rfl⟩ := refuseIf_ok hpass
  obtain ⟨raw, mid₂, hraw, h₃⟩ := reader_bind_ok.1 h₂
  obtain ⟨hlen', hmid⟩ := nextBytes_ok hraw
  cases hname : ofUtf8 raw with
  | none =>
      rw [hname] at h₃
      exact (reader_throw_ok.1 h₃).elim
  | some name =>
      rw [hname] at h₃
      cases reader_pure_ok.1 h₃
      have hutf8 : utf8 s = raw := utf8_of_ofUtf8 hname
      rw [not_or, not_lt, ← hlen', ← hutf8] at hrange
      refine ⟨⟨Nat.pos_of_ne_zero hrange.1, hrange.2⟩, ?_⟩
      have hd' : leBytes 2 (utf8 s).length = d := by
        rw [hutf8, hlen', ← hlen, leBytes_fromLe]
      rw [hbs, hmid, encodeName, hd', hutf8, List.append_assoc]

/-! ### Label sets, flags and kinds -/

theorem decodes_decodeLabels {labels : List UInt16} (h : labels.length ≤ maxLabels) :
    Decodes decodeLabels (encodeLabels labels) labels := by
  refine (decodes_readNat (h.trans_lt (by decide))).bind ?_
  refine (decodes_refuseIf (not_lt.2 h) _).bind ?_
  exact Decodes.readN fun l _ => decodes_readU16 l

theorem decodeLabels_ok {labels : List UInt16} {bs rest : Bytes}
    (h : decodeLabels bs = .ok (labels, rest)) :
    labels.length ≤ maxLabels ∧ bs = encodeLabels labels ++ rest := by
  obtain ⟨n, mid, hn, h₁⟩ := reader_bind_ok.1 h
  obtain ⟨-, hbs⟩ := readNat_ok hn
  obtain ⟨⟨⟩, mid₁, hpass, h₂⟩ := reader_bind_ok.1 h₁
  obtain ⟨hmax, rfl⟩ := refuseIf_ok hpass
  have hlen : labels.length = n := length_readN h₂
  subst hlen
  exact ⟨not_lt.1 hmax, by rw [hbs, spells_readU16.readN _ h₂, encodeLabels, List.append_assoc]⟩

theorem decodes_readFlag (what : String) (b : Bool) :
    Decodes (readFlag what) [putFlag b] b := by
  intro rest
  cases b <;> rfl

theorem readFlag_ok {what : String} {b : Bool} {bs rest : Bytes}
    (h : readFlag what bs = .ok (b, rest)) : bs = [putFlag b] ++ rest := by
  obtain ⟨byte, mid, hbyte, h₁⟩ := reader_bind_ok.1 h
  rw [nextByte_ok hbyte]
  split_ifs at h₁ with h0 h1
  · cases reader_pure_ok.1 h₁
    rw [h0]
    rfl
  · cases reader_pure_ok.1 h₁
    rw [h1]
    rfl
  · exact (reader_throw_ok.1 h₁).elim

theorem decodes_decodeDirection (b : Bool) : Decodes decodeDirection [putFlag b] b := by
  intro rest
  cases b <;> rfl

theorem decodeDirection_ok {b : Bool} {bs rest : Bytes}
    (h : decodeDirection bs = .ok (b, rest)) : bs = [putFlag b] ++ rest := by
  obtain ⟨byte, mid, hbyte, h₁⟩ := reader_bind_ok.1 h
  rw [nextByte_ok hbyte]
  split_ifs at h₁ with h0 h1
  · cases reader_pure_ok.1 h₁
    rw [h0]
    rfl
  · cases reader_pure_ok.1 h₁
    rw [h1]
    rfl
  · exact (reader_throw_ok.1 h₁).elim

theorem decodes_decodeKind (k : ElementKind) : Decodes decodeKind [k.code] k := by
  intro rest
  cases k <;> rfl

theorem decodeKind_ok {k : ElementKind} {bs rest : Bytes}
    (h : decodeKind bs = .ok (k, rest)) : bs = [k.code] ++ rest := by
  obtain ⟨byte, mid, hbyte, h₁⟩ := reader_bind_ok.1 h
  rw [nextByte_ok hbyte]
  split_ifs at h₁ with h0 h1
  · cases reader_pure_ok.1 h₁
    rw [h0]
    rfl
  · cases reader_pure_ok.1 h₁
    rw [h1]
    rfl
  · exact (reader_throw_ok.1 h₁).elim

theorem decodes_decodeFlags (e : ElementType) : Decodes decodeFlags [e.flags] e.flags := by
  intro rest
  rw [ElementType.flags]
  cases e.isOpen <;> cases e.undirected <;> rfl

theorem decodeFlags_ok {flags : UInt8} {bs rest : Bytes}
    (h : decodeFlags bs = .ok (flags, rest)) : flags.toNat < 4 ∧ bs = [flags] ++ rest := by
  obtain ⟨byte, mid, hbyte, h₁⟩ := reader_bind_ok.1 h
  rw [nextByte_ok hbyte]
  obtain ⟨⟨⟩, mid₁, hpass, h₂⟩ := reader_bind_ok.1 h₁
  obtain ⟨hmax, rfl⟩ := refuseIf_ok hpass
  cases reader_pure_ok.1 h₂
  exact ⟨not_le.1 hmax, rfl⟩

theorem decodes_decodeKey {key : KeyLabels} (h : key.ids.length ≤ maxLabels) :
    Decodes decodeKey ([key.code] ++ encodeLabels key.ids) key := by
  have hids := decodes_decodeLabels h
  refine (decodes_nextByte key.code _).bind ((decodes_refuseIf ?_ _).bind ?_)
  · cases key <;> exact Nat.not_lt.2 (Nat.le_of_ble_eq_true rfl)
  · intro rest
    refine reader_bind_ok.2 ⟨key.ids, rest, hids rest, ?_⟩
    cases key <;> rfl

theorem decodeKey_ok {key : KeyLabels} {bs rest : Bytes} (h : decodeKey bs = .ok (key, rest)) :
    key.ids.length ≤ maxLabels ∧ bs = [key.code] ++ encodeLabels key.ids ++ rest := by
  obtain ⟨code, mid, hcode, h₁⟩ := reader_bind_ok.1 h
  obtain ⟨⟨⟩, mid₁, hpass, h₂⟩ := reader_bind_ok.1 h₁
  obtain ⟨hmax, rfl⟩ := refuseIf_ok hpass
  obtain ⟨ids, mid₂, hids, h₃⟩ := reader_bind_ok.1 h₂
  obtain ⟨hlen, hmid⟩ := decodeLabels_ok hids
  rw [nextByte_ok hcode, hmid]
  split_ifs at h₃ with h0 h1 hnil
  · cases reader_pure_ok.1 h₃
    exact ⟨hlen, by rw [h0]; rfl⟩
  · cases reader_pure_ok.1 h₃
    exact ⟨hlen, by rw [h1]; rfl⟩
  · cases reader_pure_ok.1 h₃
    have h2 : code = 2 := by
      have h0' : code.toNat ≠ 0 := fun h => h0 (UInt8.toNat_inj.1 h)
      have h1' : code.toNat ≠ 1 := fun h => h1 (UInt8.toNat_inj.1 h)
      refine UInt8.toNat_inj.1 (show code.toNat = 2 from ?_)
      omega
    rw [h2, hnil]
    exact ⟨Nat.zero_le _, rfl⟩
  · exact (reader_throw_ok.1 h₃).elim

end Zu.Schema
