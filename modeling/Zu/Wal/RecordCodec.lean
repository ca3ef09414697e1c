import Zu.Wal.Record

/-!
# A record is read back as it was written

Each field's reader undoes the field's encoding, and a record's reader undoes
its payload by running the fields' readers in turn. The two conditions on a
record are that its counts fit the 32 bits they are written in (`Fits`) and that
the lists that run beside each other are of one length (`WellShaped`); every
record the commit path builds is well shaped, and the counts fit whenever the
payload is shorter than `2 ^ 32` bytes.
-/

namespace Zu.Wal

open Lib

theorem decodes_readBytes (d : Bytes) : Decodes (readBytes d.length) d d := by
  intro rest
  have hlen : ¬ (d ++ rest).length < d.length := by
    rw [List.length_append]; omega
  rw [readBytes, if_neg hlen, List.take_left, List.drop_left]

theorem decodes_readField {k n : ℕ} (h : n < 256 ^ k) :
    Decodes (do return fromLe (← readBytes k)) (leBytes k n) n := by
  have hread := decodes_readBytes (leBytes k n)
  rw [length_leBytes] at hread
  exact hread.bind_pure (fromLe_leBytes_of_lt h)

theorem decodes_readU8 {n : ℕ} (h : n < 256) : Decodes readU8 (leBytes 1 n) n :=
  decodes_readField (by omega)

theorem decodes_readU32 {n : ℕ} (h : n < 2 ^ 32) :
    Decodes readU32 (putU32 n) n :=
  decodes_readField (by omega)

theorem decodes_readU64 (x : UInt64) : Decodes readU64 (putU64 x) x := by
  have hread := decodes_readBytes (leBytes 8 x.toNat)
  rw [length_leBytes] at hread
  have hx : x.toNat < 256 ^ 8 := x.toNat_lt
  refine hread.bind_pure ?_
  rw [fromLe_leBytes_of_lt hx, UInt64.ofNat_toNat]

theorem decodes_readU64s (v : List UInt64) :
    Decodes (readU64s v.length) (putU64s v) v :=
  Decodes.readN fun x _ => decodes_readU64 x

theorem decodes_readStr {s : Bytes} (h : s.length < 2 ^ 32) :
    Decodes readStr (putU32 s.length ++ s) s :=
  (decodes_readU32 h).bind (decodes_readBytes s)

/-- The counts the values are written under are the ones they have. -/
def WalValues.Fits : WalValues → Prop
  | .int v => v.length < 2 ^ 32
  | .str v => v.length < 2 ^ 32 ∧ ∀ s ∈ v, s.length < 2 ^ 32
  | .null _ => True

@[simp] theorem length_putU64s (v : List UInt64) :
    (putU64s v).length = 8 * v.length := by
  induction v with
  | nil => rfl
  | cons x v ih =>
      rw [putU64s, List.flatMap_cons, List.length_append, List.length_cons]
      have hx : (putU64 x).length = 8 := length_leBytes 8 _
      rw [putU64s] at ih
      omega

/-- The counts of values written in fewer than `2 ^ 32` bytes fit. -/
theorem WalValues.fits_of_length {v : WalValues} (h : v.encode.length < 2 ^ 32) :
    v.Fits := by
  cases v with
  | int v =>
      simp only [encode, List.length_append, length_putU64s] at h
      simp only [Fits]
      omega
  | str v =>
      have hlen : (v.flatMap fun s => putU32 s.length ++ s).length < 2 ^ 32 := by
        simp only [encode, List.length_append] at h
        omega
      refine ⟨(length_le_length_flatMap fun s _ => ?_).trans_lt hlen, fun s hs => ?_⟩
      · rw [List.length_append, putU32, length_leBytes]
        omega
      · have hs' := (length_le_of_mem_flatMap
          (fun s : Bytes => putU32 s.length ++ s) hs).trans_lt hlen
        rw [List.length_append] at hs'
        omega
  | null n => trivial

theorem WalValues.decodes_decode {v : WalValues} (h : v.Fits) :
    Decodes WalValues.decode v.encode v := by
  cases v with
  | int v =>
      rw [encode, List.append_assoc]
      exact (decodes_readU8 (n := 0) (by decide)).bind
        ((decodes_readU32 h).bind ((decodes_readU64s v).bind_pure rfl))
  | str v =>
      have hstrs : Decodes (readN readStr v.length)
          (v.flatMap fun s => putU32 s.length ++ s) v :=
        Decodes.readN fun s hs => decodes_readStr (h.2 s hs)
      rw [encode, List.append_assoc]
      exact (decodes_readU8 (n := 1) (by decide)).bind
        ((decodes_readU32 h.1).bind (hstrs.bind_pure rfl))
  | null n =>
      have hcount : Decodes
          (readU32 >>= fun count => pure (WalValues.null (UInt32.ofNat count)))
          (putU32 n.toNat) (.null n) :=
        (decodes_readU32 n.toNat_lt).bind_pure (by rw [UInt32.ofNat_toNat])
      exact (decodes_readU8 (n := 2) (by decide)).bind hcount

theorem WalColumn.decodes_decode {c : WalColumn} (h : c.values.Fits) :
    Decodes WalColumn.decode c.encode c := by
  refine (decodes_readU32 c.col.toNat_lt).bind
    ((WalValues.decodes_decode h).bind_pure ?_)
  rw [UInt32.ofNat_toNat]

/-- Values whose length is checked are read as themselves when it is right. -/
theorem decodes_checked {β : Type} {v : WalValues} {count : ℕ} (h : v.Fits)
    (hlen : v.len = count) (err : WalValues → ZuError) (f : WalValues → β) :
    Decodes (do
      let values ← WalValues.decode
      if values.len ≠ count then throw (err values)
      return f values : PayloadReader β) v.encode (f v) := by
  have hread : Decodes (do
      let values ← WalValues.decode
      if values.len ≠ count then throw (err values)
      return f values : PayloadReader β) (v.encode ++ []) (f v) := by
    refine (WalValues.decodes_decode h).bind ?_
    rw [if_neg (not_not_intro hlen)]
    exact Decodes.pure (f v)
  rwa [List.append_nil] at hread

theorem WalColumn.decodes_decodeFor {c : WalColumn} {count : ℕ}
    (h : c.values.Fits) (hlen : c.values.len = count) :
    Decodes (WalColumn.decodeFor count) c.encode c := by
  refine (decodes_readU32 c.col.toNat_lt).bind ?_
  have hread := decodes_checked h hlen (fun values => corrupt
      s!"rel insert carries {count} edges but {values.len} values for column {c.col.toNat}")
    (fun values => ({ col := UInt32.ofNat c.col.toNat, values } : WalColumn))
  have hc : ({ col := UInt32.ofNat c.col.toNat, values := c.values } : WalColumn) = c := by
    rw [UInt32.ofNat_toNat]
  rwa [hc] at hread

namespace WalRecord

/-- Every count the record is written under is the one it has. -/
def Fits : WalRecord → Prop
  | txnBegin | txnCommit | checkpointNote | ddlCatalog _ => True
  | nodeInsert _ cols => cols.length < 2 ^ 32 ∧ ∀ c ∈ cols, c.values.Fits
  | relInsert _ src _ cols =>
      src.length < 2 ^ 32 ∧ cols.length < 2 ^ 32 ∧ ∀ c ∈ cols, c.values.Fits
  | update _ _ _ offsets values => offsets.length < 2 ^ 32 ∧ values.Fits
  | delete _ ids => ids.length < 2 ^ 32
  | ingestRef _ ptrs => ptrs.length < 2 ^ 32
  | relDelete _ src _ => src.length < 2 ^ 32
  | relUpdate _ _ src _ values => src.length < 2 ^ 32 ∧ values.Fits
  | labelUpdate _ offsets _ _ => offsets.length < 2 ^ 32

/-- Lists that run beside each other have one length, and a label change does not
set what it clears. -/
def WellShaped : WalRecord → Prop
  | relInsert _ src dst cols =>
      dst.length = src.length ∧ ∀ c ∈ cols, c.values.len = src.length
  | update _ _ _ offsets values => values.len = offsets.length
  | relDelete _ src dst => dst.length = src.length
  | relUpdate _ _ src dst values =>
      dst.length = src.length ∧ values.len = src.length
  | labelUpdate _ _ add remove => add &&& remove = 0
  | _ => True

theorem fits_of_length {r : WalRecord} (h : r.encodePayload.length < 2 ^ 32) :
    r.Fits := by
  have hcols : ∀ cols : List WalColumn,
      (cols.flatMap WalColumn.encode).length < 2 ^ 32 →
        cols.length < 2 ^ 32 ∧ ∀ c ∈ cols, c.values.Fits := by
    intro cols hlen
    refine ⟨(length_le_length_flatMap fun c _ => ?_).trans_lt hlen, fun c hc => ?_⟩
    · rw [WalColumn.encode, List.length_append, putU32, length_leBytes]
      omega
    · have hc' := (length_le_of_mem_flatMap WalColumn.encode hc).trans_lt hlen
      refine WalValues.fits_of_length ?_
      rw [WalColumn.encode, List.length_append] at hc'
      omega
  cases r with
  | txnBegin => trivial
  | txnCommit => trivial
  | checkpointNote => trivial
  | ddlCatalog delta => trivial
  | nodeInsert table cols =>
      refine hcols cols ?_
      simp only [encodePayload, List.length_append] at h
      omega
  | relInsert rel src dst cols =>
      simp only [encodePayload, List.length_append, length_putU64s] at h
      exact ⟨by omega, hcols cols (by omega)⟩
  | update table group col offsets values =>
      simp only [encodePayload, List.length_append, length_putU64s] at h
      exact ⟨by omega, WalValues.fits_of_length (by omega)⟩
  | relUpdate rel col src dst values =>
      simp only [encodePayload, List.length_append, length_putU64s] at h
      exact ⟨by omega, WalValues.fits_of_length (by omega)⟩
  | delete | ingestRef | relDelete | labelUpdate =>
      simp only [encodePayload, List.length_append, length_putU64s] at h
      simp only [Fits]
      omega

/-- The fields of a payload are read as the record, whatever follows them; a
catalog delta is the one payload that runs to the end of its frame. -/
theorem decodes_decodeFields {r : WalRecord} (hfits : r.Fits)
    (hshape : r.WellShaped) (hddl : ∀ delta, r ≠ ddlCatalog delta) :
    Decodes (decodeFields r.kind) r.encodePayload r := by
  cases r with
  | txnBegin => exact Decodes.pure _
  | txnCommit => exact Decodes.pure _
  | checkpointNote => exact Decodes.pure _
  | ddlCatalog delta => exact absurd rfl (hddl delta)
  | nodeInsert table cols =>
      have hcols : Decodes (readN WalColumn.decode cols.length)
          (cols.flatMap WalColumn.encode) cols :=
        Decodes.readN fun c hc => WalColumn.decodes_decode (hfits.2 c hc)
      rw [encodePayload, List.append_assoc]
      exact (decodes_readU32 table.toNat_lt).bind
        ((decodes_readU32 hfits.1).bind (hcols.bind_pure (by simp)))
  | relInsert rel src dst cols =>
      obtain ⟨hsrc, hcount, hvalues⟩ := hfits
      obtain ⟨hdst, hlens⟩ := hshape
      have hcols : Decodes (readN (WalColumn.decodeFor src.length) cols.length)
          (cols.flatMap WalColumn.encode) cols :=
        Decodes.readN fun c hc =>
          WalColumn.decodes_decodeFor (hvalues c hc) (hlens c hc)
      have hdsts := decodes_readU64s dst
      rw [hdst] at hdsts
      simp only [encodePayload, List.append_assoc]
      exact (decodes_readU32 rel.toNat_lt).bind
        ((decodes_readU32 hsrc).bind ((decodes_readU64s src).bind (hdsts.bind
          ((decodes_readU32 hcount).bind (hcols.bind_pure (by simp))))))
  | update table group col offsets values =>
      have hvalues := decodes_checked hfits.2 hshape (fun values => corrupt
          s!"update carries {offsets.length} offsets but {values.len} values")
        (update (UInt32.ofNat table.toNat) group (UInt32.ofNat col.toNat) offsets)
      rw [UInt32.ofNat_toNat, UInt32.ofNat_toNat] at hvalues
      simp only [encodePayload, List.append_assoc]
      exact (decodes_readU32 table.toNat_lt).bind ((decodes_readU64 group).bind
        ((decodes_readU32 col.toNat_lt).bind ((decodes_readU32 hfits.1).bind
          ((decodes_readU64s offsets).bind (by simpa using hvalues)))))
  | delete table ids =>
      rw [encodePayload, List.append_assoc]
      exact (decodes_readU32 table.toNat_lt).bind ((decodes_readU32 hfits).bind
        ((decodes_readU64s ids).bind_pure (by simp)))
  | ingestRef table ptrs =>
      rw [encodePayload, List.append_assoc]
      exact (decodes_readU32 table.toNat_lt).bind ((decodes_readU32 hfits).bind
        ((decodes_readU64s ptrs).bind_pure (by simp)))
  | relDelete rel src dst =>
      have hdsts := decodes_readU64s dst
      rw [show dst.length = src.length from hshape] at hdsts
      simp only [encodePayload, List.append_assoc]
      exact (decodes_readU32 rel.toNat_lt).bind ((decodes_readU32 hfits).bind
        ((decodes_readU64s src).bind (hdsts.bind_pure (by simp))))
  | relUpdate rel col src dst values =>
      have hdsts := decodes_readU64s dst
      rw [hshape.1] at hdsts
      have hvalues := decodes_checked hfits.2 hshape.2 (fun values => corrupt
          s!"rel update names {src.length} edges but carries {values.len} values")
        (relUpdate (UInt32.ofNat rel.toNat) (UInt32.ofNat col.toNat) src dst)
      rw [UInt32.ofNat_toNat, UInt32.ofNat_toNat] at hvalues
      simp only [encodePayload, List.append_assoc]
      exact (decodes_readU32 rel.toNat_lt).bind ((decodes_readU32 col.toNat_lt).bind
        ((decodes_readU32 hfits.1).bind ((decodes_readU64s src).bind
          (hdsts.bind (by simpa using hvalues)))))
  | labelUpdate table offsets add remove =>
      have hoffsets : Decodes (readU64s offsets.length >>= fun v =>
          pure (labelUpdate (UInt32.ofNat table.toNat) v add remove))
          (putU64s offsets) (labelUpdate table offsets add remove) :=
        (decodes_readU64s offsets).bind_pure (by simp)
      have hmasks : ¬ (add &&& remove ≠ 0) := not_not_intro hshape
      simp only [encodePayload, List.append_assoc]
      refine (decodes_readU32 table.toNat_lt).bind ((decodes_readU64 add).bind
        ((decodes_readU64 remove).bind ((decodes_readU32 hfits).bind ?_)))
      rw [if_neg hmasks]
      exact hoffsets

/-- A record whose counts fit is read back from its payload as it was. -/
theorem decode_encodePayload {r : WalRecord} (hfits : r.Fits)
    (hshape : r.WellShaped) : decode r.kind r.encodePayload = .ok (r, []) := by
  have hfields : decodeFields r.kind r.encodePayload = .ok (r, []) := by
    by_cases hddl : ∃ delta, r = ddlCatalog delta
    · obtain ⟨delta, rfl⟩ := hddl
      rfl
    · have h := decodes_decodeFields hfits hshape (not_exists.1 hddl) []
      rwa [List.append_nil] at h
  change (decodeFields r.kind r.encodePayload >>= _) = _
  rw [hfields]
  rfl

end WalRecord

end Zu.Wal
