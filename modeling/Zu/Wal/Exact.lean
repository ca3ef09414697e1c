import Zu.Wal.RecordCodec

/-!
# What a record is read from

A payload that is read is the payload of the record it is read as: each field's
reader gives back what the field's encoding makes of its value, and what it gives
fits and is well shaped. A record is read back from its payload exactly when its
counts fit the fields they are written in and its lists agree.
-/

namespace Zu.Wal

open Lib

theorem readBytes_ok {n : ℕ} {bs d rest : Bytes} (h : readBytes n bs = .ok (d, rest)) :
    d.length = n ∧ bs = d ++ rest := by
  rw [readBytes] at h
  split at h
  · cases h
  · next hlen =>
      cases h
      exact ⟨List.length_take_of_le (Nat.not_lt.1 hlen), (List.take_append_drop n bs).symm⟩

theorem readU8_ok {bs rest : Bytes} {n : ℕ} (h : readU8 bs = .ok (n, rest)) :
    bs = leBytes 1 n ++ rest := by
  obtain ⟨d, mid, hd, h₁⟩ := reader_bind_ok.1 h
  cases reader_pure_ok.1 h₁
  obtain ⟨hlen, rfl⟩ := readBytes_ok hd
  rw [leBytes_fromLe_of_length hlen]

theorem readU32_ok {bs rest : Bytes} {n : ℕ} (h : readU32 bs = .ok (n, rest)) :
    n < 2 ^ 32 ∧ bs = putU32 n ++ rest := by
  obtain ⟨d, mid, hd, h₁⟩ := reader_bind_ok.1 h
  cases reader_pure_ok.1 h₁
  obtain ⟨hlen, rfl⟩ := readBytes_ok hd
  refine ⟨?_, by rw [putU32, leBytes_fromLe_of_length hlen]⟩
  have hlt := fromLe_lt d
  rw [hlen] at hlt
  exact hlt

theorem toNat_ofU32 {n : ℕ} (h : n < 2 ^ 32) : (UInt32.ofNat n).toNat = n :=
  UInt32.toNat_ofNat_of_lt' h

theorem spells_readU64 : Spells readU64 putU64 := by
  intro bs x rest h
  obtain ⟨d, mid, hd, h₁⟩ := reader_bind_ok.1 h
  cases reader_pure_ok.1 h₁
  obtain ⟨hlen, rfl⟩ := readBytes_ok hd
  have hlt := fromLe_lt d
  rw [hlen] at hlt
  rw [putU64, UInt64.toNat_ofNat_of_lt' hlt, leBytes_fromLe_of_length hlen]

theorem readU64s_ok {count : ℕ} {bs rest : Bytes} {v : List UInt64}
    (h : readU64s count bs = .ok (v, rest)) : v.length = count ∧ bs = putU64s v ++ rest :=
  ⟨length_readN h, spells_readU64.readN count h⟩

theorem readStr_ok {bs rest s : Bytes} (h : readStr bs = .ok (s, rest)) :
    s.length < 2 ^ 32 ∧ bs = putU32 s.length ++ s ++ rest := by
  obtain ⟨n, mid, hn, h₁⟩ := reader_bind_ok.1 h
  obtain ⟨hlt, rfl⟩ := readU32_ok hn
  obtain ⟨rfl, rfl⟩ := readBytes_ok h₁
  exact ⟨hlt, (List.append_assoc _ _ _).symm⟩

theorem check_ok {α : Type} {p : Prop} [Decidable p] {err : ZuError} {k : PUnit → PayloadReader α}
    {bs : Bytes} {out : α × Bytes}
    (h : (if p then throw err >>= k else k ⟨⟩ : PayloadReader α) bs = .ok out) :
    ¬ p ∧ k ⟨⟩ bs = .ok out := by
  split at h
  · obtain ⟨u, mid, hthrow, -⟩ := reader_bind_ok.1 h
    exact (reader_throw_ok.1 hthrow).elim
  · next hp => exact ⟨hp, h⟩

namespace WalValues

/-- Values that are read fit, and are spelled by what they were read from. -/
theorem decode_ok {bs rest : Bytes} {v : WalValues} (h : decode bs = .ok (v, rest)) :
    v.Fits ∧ bs = v.encode ++ rest := by
  obtain ⟨tag, bs₁, htag, h₁⟩ := reader_bind_ok.1 h
  obtain ⟨count, bs₂, hcount, h₂⟩ := reader_bind_ok.1 h₁
  obtain rfl := readU8_ok htag
  obtain ⟨hlt, rfl⟩ := readU32_ok hcount
  split at h₂
  · obtain ⟨words, bs₃, hwords, h₃⟩ := reader_bind_ok.1 h₂
    cases reader_pure_ok.1 h₃
    obtain ⟨rfl, rfl⟩ := readU64s_ok hwords
    refine ⟨hlt, ?_⟩
    rw [encode, List.append_assoc, List.append_assoc]
    rfl
  · obtain ⟨strs, bs₃, hstrs, h₃⟩ := reader_bind_ok.1 h₂
    cases reader_pure_ok.1 h₃
    have hspells : Spells readStr fun s => putU32 s.length ++ s := fun _ _ _ hs => (readStr_ok hs).2
    have hgives : Gives readStr fun s => s.length < 2 ^ 32 := fun _ _ _ hs => (readStr_ok hs).1
    obtain rfl := length_readN hstrs
    refine ⟨⟨hlt, hgives.readN _ hstrs⟩, ?_⟩
    rw [hspells.readN _ hstrs, encode, List.append_assoc, List.append_assoc]
    rfl
  · cases reader_pure_ok.1 h₂
    refine ⟨trivial, ?_⟩
    rw [encode, toNat_ofU32 hlt, List.append_assoc]
    rfl
  · exact (reader_throw_ok.1 h₂).elim

end WalValues

namespace WalColumn

theorem decode_ok {bs rest : Bytes} {c : WalColumn} (h : decode bs = .ok (c, rest)) :
    c.values.Fits ∧ bs = c.encode ++ rest := by
  obtain ⟨col, bs₁, hcol, h₁⟩ := reader_bind_ok.1 h
  obtain ⟨values, bs₂, hvalues, h₂⟩ := reader_bind_ok.1 h₁
  cases reader_pure_ok.1 h₂
  obtain ⟨hlt, rfl⟩ := readU32_ok hcol
  obtain ⟨hfits, rfl⟩ := WalValues.decode_ok hvalues
  refine ⟨hfits, ?_⟩
  rw [encode, toNat_ofU32 hlt, List.append_assoc]

theorem decodeFor_ok {count : ℕ} {bs rest : Bytes} {c : WalColumn}
    (h : decodeFor count bs = .ok (c, rest)) :
    (c.values.Fits ∧ c.values.len = count) ∧ bs = c.encode ++ rest := by
  obtain ⟨col, bs₁, hcol, h₁⟩ := reader_bind_ok.1 h
  obtain ⟨values, bs₂, hvalues, h₂⟩ := reader_bind_ok.1 h₁
  obtain ⟨hlt, rfl⟩ := readU32_ok hcol
  obtain ⟨hfits, rfl⟩ := WalValues.decode_ok hvalues
  obtain ⟨hlen, h₃⟩ := check_ok h₂
  cases reader_pure_ok.1 h₃
  refine ⟨⟨hfits, not_not.1 hlen⟩, ?_⟩
  rw [encode, toNat_ofU32 hlt, List.append_assoc]

end WalColumn

namespace WalRecord

/-- What is read as a record of a kind is one, fits, is well shaped, and is spelled by
what it was read from. -/
theorem decodeFields_ok {kind : ℕ} {bs rest : Bytes} {r : WalRecord}
    (h : decodeFields kind bs = .ok (r, rest)) :
    r.kind = kind ∧ (r.Fits ∧ r.WellShaped) ∧ bs = r.encodePayload ++ rest := by
  unfold decodeFields at h
  split at h
  · cases reader_pure_ok.1 h
    exact ⟨rfl, ⟨trivial, trivial⟩, rfl⟩
  · obtain ⟨table, bs₁, htable, h₁⟩ := reader_bind_ok.1 h
    obtain ⟨colCount, bs₂, hcount, h₂⟩ := reader_bind_ok.1 h₁
    obtain ⟨cols, bs₃, hcols, h₃⟩ := reader_bind_ok.1 h₂
    cases reader_pure_ok.1 h₃
    obtain ⟨hlt, rfl⟩ := readU32_ok htable
    obtain ⟨hcountLt, rfl⟩ := readU32_ok hcount
    have hgives : Gives WalColumn.decode fun c => c.values.Fits := fun _ _ _ hc =>
      (WalColumn.decode_ok hc).1
    have hspells : Spells WalColumn.decode WalColumn.encode := fun _ _ _ hc =>
      (WalColumn.decode_ok hc).2
    obtain rfl := length_readN hcols
    refine ⟨rfl, ⟨⟨hcountLt, hgives.readN _ hcols⟩, trivial⟩, ?_⟩
    rw [hspells.readN _ hcols, encodePayload, toNat_ofU32 hlt]
    simp only [List.append_assoc]
  · obtain ⟨rel, bs₁, hrel, h₁⟩ := reader_bind_ok.1 h
    obtain ⟨count, bs₂, hcount, h₂⟩ := reader_bind_ok.1 h₁
    obtain ⟨src, bs₃, hsrc, h₃⟩ := reader_bind_ok.1 h₂
    obtain ⟨dst, bs₄, hdst, h₄⟩ := reader_bind_ok.1 h₃
    obtain ⟨colCount, bs₅, hcolCount, h₅⟩ := reader_bind_ok.1 h₄
    obtain ⟨cols, bs₆, hcols, h₆⟩ := reader_bind_ok.1 h₅
    cases reader_pure_ok.1 h₆
    obtain ⟨hlt, rfl⟩ := readU32_ok hrel
    obtain ⟨hcountLt, rfl⟩ := readU32_ok hcount
    obtain ⟨rfl, rfl⟩ := readU64s_ok hsrc
    obtain ⟨hlen, rfl⟩ := readU64s_ok hdst
    obtain ⟨hcolLt, rfl⟩ := readU32_ok hcolCount
    have hgives : Gives (WalColumn.decodeFor src.length)
        fun c => c.values.Fits ∧ c.values.len = src.length := fun _ _ _ hc =>
      (WalColumn.decodeFor_ok hc).1
    have hspells : Spells (WalColumn.decodeFor src.length) WalColumn.encode := fun _ _ _ hc =>
      (WalColumn.decodeFor_ok hc).2
    have hvalues := hgives.readN _ hcols
    obtain rfl := length_readN hcols
    refine ⟨rfl, ⟨⟨hcountLt, hcolLt, fun c hc => (hvalues c hc).1⟩, hlen,
      fun c hc => (hvalues c hc).2⟩, ?_⟩
    rw [hspells.readN _ hcols, encodePayload, toNat_ofU32 hlt]
    simp only [List.append_assoc]
  · obtain ⟨table, bs₁, htable, h₁⟩ := reader_bind_ok.1 h
    obtain ⟨group, bs₂, hgroup, h₂⟩ := reader_bind_ok.1 h₁
    obtain ⟨col, bs₃, hcol, h₃⟩ := reader_bind_ok.1 h₂
    obtain ⟨count, bs₄, hcount, h₄⟩ := reader_bind_ok.1 h₃
    obtain ⟨offsets, bs₅, hoffsets, h₅⟩ := reader_bind_ok.1 h₄
    obtain ⟨values, bs₆, hvalues, h₆⟩ := reader_bind_ok.1 h₅
    obtain ⟨hlen, h₇⟩ := check_ok h₆
    cases reader_pure_ok.1 h₇
    obtain ⟨hlt, rfl⟩ := readU32_ok htable
    have hgroupEq := spells_readU64 hgroup
    obtain ⟨hcolLt, rfl⟩ := readU32_ok hcol
    obtain ⟨hcountLt, rfl⟩ := readU32_ok hcount
    obtain ⟨rfl, rfl⟩ := readU64s_ok hoffsets
    obtain ⟨hfits, rfl⟩ := WalValues.decode_ok hvalues
    refine ⟨rfl, ⟨⟨hcountLt, hfits⟩, not_not.1 hlen⟩, ?_⟩
    rw [hgroupEq, encodePayload, toNat_ofU32 hlt, toNat_ofU32 hcolLt]
    simp only [List.append_assoc]
  · obtain ⟨table, bs₁, htable, h₁⟩ := reader_bind_ok.1 h
    obtain ⟨count, bs₂, hcount, h₂⟩ := reader_bind_ok.1 h₁
    obtain ⟨ids, bs₃, hids, h₃⟩ := reader_bind_ok.1 h₂
    cases reader_pure_ok.1 h₃
    obtain ⟨hlt, rfl⟩ := readU32_ok htable
    obtain ⟨hcountLt, rfl⟩ := readU32_ok hcount
    obtain ⟨rfl, rfl⟩ := readU64s_ok hids
    refine ⟨rfl, ⟨hcountLt, trivial⟩, ?_⟩
    rw [encodePayload, toNat_ofU32 hlt]
    simp only [List.append_assoc]
  · cases h
    exact ⟨rfl, ⟨trivial, trivial⟩, (List.append_nil _).symm⟩
  · cases reader_pure_ok.1 h
    exact ⟨rfl, ⟨trivial, trivial⟩, rfl⟩
  · obtain ⟨table, bs₁, htable, h₁⟩ := reader_bind_ok.1 h
    obtain ⟨count, bs₂, hcount, h₂⟩ := reader_bind_ok.1 h₁
    obtain ⟨ptrs, bs₃, hptrs, h₃⟩ := reader_bind_ok.1 h₂
    cases reader_pure_ok.1 h₃
    obtain ⟨hlt, rfl⟩ := readU32_ok htable
    obtain ⟨hcountLt, rfl⟩ := readU32_ok hcount
    obtain ⟨rfl, rfl⟩ := readU64s_ok hptrs
    refine ⟨rfl, ⟨hcountLt, trivial⟩, ?_⟩
    rw [encodePayload, toNat_ofU32 hlt]
    simp only [List.append_assoc]
  · cases reader_pure_ok.1 h
    exact ⟨rfl, ⟨trivial, trivial⟩, rfl⟩
  · obtain ⟨rel, bs₁, hrel, h₁⟩ := reader_bind_ok.1 h
    obtain ⟨count, bs₂, hcount, h₂⟩ := reader_bind_ok.1 h₁
    obtain ⟨src, bs₃, hsrc, h₃⟩ := reader_bind_ok.1 h₂
    obtain ⟨dst, bs₄, hdst, h₄⟩ := reader_bind_ok.1 h₃
    cases reader_pure_ok.1 h₄
    obtain ⟨hlt, rfl⟩ := readU32_ok hrel
    obtain ⟨hcountLt, rfl⟩ := readU32_ok hcount
    obtain ⟨rfl, rfl⟩ := readU64s_ok hsrc
    obtain ⟨hlen, rfl⟩ := readU64s_ok hdst
    refine ⟨rfl, ⟨hcountLt, hlen⟩, ?_⟩
    rw [encodePayload, toNat_ofU32 hlt]
    simp only [List.append_assoc]
  · obtain ⟨rel, bs₁, hrel, h₁⟩ := reader_bind_ok.1 h
    obtain ⟨col, bs₂, hcol, h₂⟩ := reader_bind_ok.1 h₁
    obtain ⟨count, bs₃, hcount, h₃⟩ := reader_bind_ok.1 h₂
    obtain ⟨src, bs₄, hsrc, h₄⟩ := reader_bind_ok.1 h₃
    obtain ⟨dst, bs₅, hdst, h₅⟩ := reader_bind_ok.1 h₄
    obtain ⟨values, bs₆, hvalues, h₆⟩ := reader_bind_ok.1 h₅
    obtain ⟨hlen, h₇⟩ := check_ok h₆
    cases reader_pure_ok.1 h₇
    obtain ⟨hlt, rfl⟩ := readU32_ok hrel
    obtain ⟨hcolLt, rfl⟩ := readU32_ok hcol
    obtain ⟨hcountLt, rfl⟩ := readU32_ok hcount
    obtain ⟨rfl, rfl⟩ := readU64s_ok hsrc
    obtain ⟨hdstLen, rfl⟩ := readU64s_ok hdst
    obtain ⟨hfits, rfl⟩ := WalValues.decode_ok hvalues
    refine ⟨rfl, ⟨⟨hcountLt, hfits⟩, hdstLen, not_not.1 hlen⟩, ?_⟩
    rw [encodePayload, toNat_ofU32 hlt, toNat_ofU32 hcolLt]
    simp only [List.append_assoc]
  · obtain ⟨table, bs₁, htable, h₁⟩ := reader_bind_ok.1 h
    obtain ⟨add, bs₂, hadd, h₂⟩ := reader_bind_ok.1 h₁
    obtain ⟨remove, bs₃, hremove, h₃⟩ := reader_bind_ok.1 h₂
    obtain ⟨count, bs₄, hcount, h₄⟩ := reader_bind_ok.1 h₃
    obtain ⟨hmasks, h₅⟩ := check_ok h₄
    obtain ⟨offsets, bs₅, hoffsets, h₆⟩ := reader_bind_ok.1 h₅
    cases reader_pure_ok.1 h₆
    obtain ⟨hlt, rfl⟩ := readU32_ok htable
    have haddEq := spells_readU64 hadd
    have hremoveEq := spells_readU64 hremove
    obtain ⟨hcountLt, rfl⟩ := readU32_ok hcount
    obtain ⟨rfl, rfl⟩ := readU64s_ok hoffsets
    refine ⟨rfl, ⟨hcountLt, not_not.1 hmasks⟩, ?_⟩
    rw [haddEq, hremoveEq, encodePayload, toNat_ofU32 hlt]
    simp only [List.append_assoc]
  · exact (reader_throw_ok.1 h).elim

/-- A payload that is accepted is the payload of the record, to its end. -/
theorem decode_ok {kind : ℕ} {bs rest : Bytes} {r : WalRecord}
    (h : decode kind bs = .ok (r, rest)) :
    rest = [] ∧ r.kind = kind ∧ (r.Fits ∧ r.WellShaped) ∧ r.encodePayload = bs := by
  obtain ⟨r', bs₁, hfields, h₁⟩ := reader_bind_ok.1 h
  obtain ⟨hkind, hfits, rfl⟩ := decodeFields_ok hfields
  obtain ⟨left, bs₂, hget, h₂⟩ := reader_bind_ok.1 h₁
  cases hget
  obtain ⟨u, bs₃, hset, h₃⟩ := reader_bind_ok.1 h₂
  cases hset
  obtain ⟨hnil, h₄⟩ := check_ok h₃
  cases reader_pure_ok.1 h₄
  refine ⟨rfl, hkind, hfits, ?_⟩
  rw [not_not.1 hnil, List.append_nil]

/-- A record is read back from its payload exactly when it fits and is well shaped. -/
theorem decode_encodePayload_iff (r : WalRecord) :
    decode r.kind r.encodePayload = .ok (r, []) ↔ r.Fits ∧ r.WellShaped := by
  constructor
  · exact fun h => (decode_ok h).2.2.1
  · exact fun h => decode_encodePayload h.1 h.2

end WalRecord

end Zu.Wal
