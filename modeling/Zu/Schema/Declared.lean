import Zu.Schema.Spelling

/-!
# A declared type is read back as itself

Two things are lost when a type is written: a bound of `2 ^ 32 - 1`, which is the count
that stands for no bound, and a second wrapper for null on the element of a list.
`Kept` rules out both, at every depth. A reader that only takes the writer's own
spelling reads exactly what was written.
-/

namespace Zu.Schema

open Lib

/-- Writing the type and reading it back loses nothing. -/
def LogicalType.Kept : LogicalType → Prop
  | .str least most _ => least ≠ some noBound ∧ most ≠ some noBound
  | .bytes least most _ => least ≠ some noBound ∧ most ≠ some noBound
  | .list elem most => most ≠ some noBound ∧ elem.Kept
  | .nullable inner => inner.isNullable = false ∧ inner.Kept
  | _ => True

theorem decodes_readBound {bound : Option UInt32} (h : bound ≠ some noBound) :
    Decodes readBound (putBound bound) bound := by
  have hword := decodes_nextBytes (putBound bound) (corruptProps "truncated length bound")
  rw [putBound, length_leBytes] at hword
  refine hword.bind_pure ?_
  have hlt : (bound.getD noBound).toNat < 256 ^ 4 := UInt32.toNat_lt _
  rw [fromLe_leBytes_of_lt hlt, UInt32.ofNat_toNat]
  cases bound with
  | none => rfl
  | some b => exact if_neg fun heq => h (congrArg some heq)

theorem readBound_ne {bound : Option UInt32} {bs rest : Bytes}
    (h : readBound bs = .ok (bound, rest)) : bound ≠ some noBound := by
  obtain ⟨word, mid, hword, h₁⟩ := reader_bind_ok.1 h
  cases reader_pure_ok.1 h₁
  intro hbound
  split_ifs at hbound with heq
  exact heq (Option.some.inj hbound)

theorem decodes_readSet (b : Bool) : Decodes readSet [putFlag b] b := by
  intro rest
  cases b <;> rfl

theorem decodes_readDigits (x : UInt16) : Decodes readDigits (leBytes 2 x.toNat) x := by
  have hword := decodes_nextBytes (leBytes 2 x.toNat) (corruptProps "truncated decimal digits")
  rw [length_leBytes] at hword
  refine hword.bind_pure ?_
  rw [fromLe_leBytes_of_lt x.toNat_lt, UInt16.ofNat_toNat]

/-- A code stands for one type, and neither for a list nor for the extended form. -/
theorem typeCode_spec {type : LogicalType} {code : UInt8} (h : typeCode type = some code) :
    codeType code = some type ∧ code ≠ listCode ∧ code ≠ extendedCode := by
  unfold typeCode at h
  split at h <;> cases h <;> exact ⟨rfl, by decide, by decide⟩

theorem codeType_kept {code : UInt8} {type : LogicalType} (h : codeType code = some type) :
    type.Kept ∧ type.isNullable = false := by
  unfold codeType at h
  split at h <;> cases h <;> simp [LogicalType.Kept, LogicalType.isNullable]

/-- The type below its wrappers for null. -/
def LogicalType.bare : LogicalType → LogicalType
  | .nullable inner => inner.bare
  | type => type

theorem LogicalType.bare_of_not_nullable {type : LogicalType} (h : type.isNullable = false) :
    type.bare = type := by
  cases type with
  | nullable inner => exact nomatch h
  | _ => rfl

/-- What the reader puts back around the element of a list. -/
theorem LogicalType.rewrap {elem : LogicalType} (h : elem.Kept) :
    (if !elem.isNullable then elem.bare else .nullable elem.bare) = elem := by
  cases elem with
  | nullable inner =>
      have hbare : inner.bare = inner := bare_of_not_nullable h.1
      exact congrArg LogicalType.nullable hbare
  | _ => rfl

theorem LogicalType.nest {P : LogicalType → Prop}
    (flat : ∀ t, (∀ inner, t ≠ nullable inner) → (∀ elem most, t ≠ list elem most) → P t)
    (wrapped : ∀ inner, P inner → P (nullable inner))
    (nested : ∀ elem most, P elem → P (list elem most)) (t : LogicalType) : P t := by
  induction h : sizeOf t using Nat.strong_induction_on generalizing t with
  | _ n ih =>
      subst h
      cases t with
      | nullable inner => exact wrapped inner (ih _ (by simp) inner rfl)
      | list elem most => exact nested elem most (ih _ (by simp +arith) elem rfl)
      | _ => exact flat _ (fun _ h => nomatch h) fun _ _ h => nomatch h

theorem decodes_code {code : UInt8} {type : LogicalType} (hcode : codeType code = some type)
    (hlist : code ≠ listCode) (hext : code ≠ extendedCode) (fuel : ℕ) :
    Decodes (decodeTypeWithin (fuel + 1)) [code] type := by
  intro rest
  refine reader_bind_ok.2 ⟨code, rest, rfl, ?_⟩
  rw [if_neg hlist, if_neg hext, readCode, hcode]
  rfl

/-- A type in the extended form is read behind the two bytes of its kind. -/
theorem decodes_extended {kind : UInt8} {d : Bytes} {type : LogicalType} {fuel : ℕ}
    (h : ∀ rest, readExtended (decodeTypeWithin fuel) (kind :: (d ++ rest)) = .ok (type, rest)) :
    Decodes (decodeTypeWithin (fuel + 1)) ([extendedCode, kind] ++ d) type := by
  intro rest
  exact reader_bind_ok.2 ⟨extendedCode, _, rfl, h rest⟩

theorem decodes_readBounded {kind : UInt8} {least most : Option UInt32} {fixed : Bool}
    {type : LogicalType} (hleast : least ≠ some noBound) (hmost : most ≠ some noBound)
    (hkind : kind = extStr ∧ type = .str least most fixed ∨
      kind = extBytes ∧ type = .bytes least most fixed) :
    Decodes (readBounded kind) ([putFlag fixed] ++ (putBound least ++ putBound most)) type := by
  refine (decodes_readSet fixed).bind ((decodes_readBound hleast).bind ?_)
  intro rest
  refine reader_bind_ok.2 ⟨most, rest, decodes_readBound hmost rest, ?_⟩
  rcases hkind with ⟨rfl, rfl⟩ | ⟨rfl, rfl⟩ <;> rfl

theorem decodes_putBounded {kind : UInt8} {least most : Option UInt32} {fixed : Bool}
    {type : LogicalType} (hleast : least ≠ some noBound) (hmost : most ≠ some noBound)
    (hkind : kind = extStr ∧ type = .str least most fixed ∨
      kind = extBytes ∧ type = .bytes least most fixed) (fuel : ℕ) :
    Decodes (decodeTypeWithin (fuel + 1)) (putBounded kind least most fixed) type := by
  have hread := decodes_readBounded hleast hmost hkind
  have hform : putBounded kind least most fixed =
      [extendedCode, kind] ++ ([putFlag fixed] ++ (putBound least ++ putBound most)) := by
    simp [putBounded]
  rw [hform]
  refine decodes_extended fun rest => ?_
  rcases hkind with ⟨rfl, rfl⟩ | ⟨rfl, rfl⟩ <;> exact hread rest

theorem decodes_decimal (precision scale : UInt16) (fuel : ℕ) :
    Decodes (decodeTypeWithin (fuel + 1))
      ([extendedCode, extDecimal] ++ leBytes 2 precision.toNat ++ leBytes 2 scale.toNat)
      (.decimal precision scale) := by
  have hread : Decodes readDecimal (leBytes 2 precision.toNat ++ leBytes 2 scale.toNat)
      (.decimal precision scale) :=
    (decodes_readDigits precision).bind ((decodes_readDigits scale).bind_pure rfl)
  rw [List.append_assoc]
  exact decodes_extended fun rest => hread rest

theorem decodes_list {elem : LogicalType} {most : Option UInt32} {d : Bytes} {fuel : ℕ}
    (hmost : most ≠ some noBound) (hkept : elem.Kept)
    (hd : Decodes (decodeTypeWithin fuel) d elem.bare) :
    Decodes (decodeTypeWithin (fuel + 1))
      ([extendedCode, extList, putFlag (!elem.isNullable)] ++ putBound most ++ d)
      (.list elem most) := by
  have hread : Decodes (readList (decodeTypeWithin fuel))
      ([putFlag (!elem.isNullable)] ++ (putBound most ++ d)) (.list elem most) := by
    refine (decodes_readSet _).bind ((decodes_readBound hmost).bind (hd.bind_pure ?_))
    exact congrArg (LogicalType.list · most) (LogicalType.rewrap hkept)
  have hform : [extendedCode, extList, putFlag (!elem.isNullable)] ++ putBound most ++ d =
      [extendedCode, extList] ++ ([putFlag (!elem.isNullable)] ++ (putBound most ++ d)) := by
    simp
  rw [hform]
  exact decodes_extended fun rest => hread rest

/-- A type with no wrapper and no element is read back from its bytes. -/
theorem decodes_flat {type : LogicalType} {elem : Bool} {d : Bytes}
    (hd : typeBytes elem type = some d) (hkept : type.Kept)
    (hwrapped : ∀ inner, type ≠ .nullable inner)
    (hnested : ∀ elem most, type ≠ .list elem most) (fuel : ℕ) :
    Decodes (decodeTypeWithin (fuel + 1)) d type := by
  unfold typeBytes at hd
  split at hd
  · exact absurd rfl (hwrapped _)
  · exact absurd rfl (hnested _ _)
  · cases hd
    exact decodes_extended fun rest => rfl
  · cases hd
    exact decodes_extended fun rest => rfl
  · cases hd
    exact decodes_extended fun rest => rfl
  · split_ifs at hd
    cases hd
    exact decodes_decimal _ _ fuel
  · cases hd
    exact decodes_code rfl (by decide) (by decide) fuel
  · cases hd
    exact decodes_putBounded hkept.1 hkept.2 (Or.inl ⟨rfl, rfl⟩) fuel
  · cases hd
    exact decodes_code rfl (by decide) (by decide) fuel
  · cases hd
    exact decodes_putBounded hkept.1 hkept.2 (Or.inr ⟨rfl, rfl⟩) fuel
  · obtain ⟨code, hcode, rfl⟩ := Option.map_eq_some_iff.1 hd
    obtain ⟨htype, hlist, hext⟩ := typeCode_spec hcode
    exact decodes_code htype hlist hext fuel

theorem typeBytes_ne_nil {type : LogicalType} {elem : Bool} {d : Bytes}
    (hd : typeBytes elem type = some d) : d ≠ [] := by
  induction type using LogicalType.nest generalizing elem with
  | flat t hwrapped hnested =>
      unfold typeBytes at hd
      split at hd
      · exact absurd rfl (hwrapped _)
      · exact absurd rfl (hnested _ _)
      all_goals first
        | (split_ifs at hd; cases hd; exact List.cons_ne_nil _ _)
        | (obtain ⟨code, hcode, rfl⟩ := Option.map_eq_some_iff.1 hd; exact List.cons_ne_nil _ _)
        | (cases hd; exact List.cons_ne_nil _ _)
  | wrapped inner ih =>
      cases elem with
      | false => exact nomatch hd
      | true => exact ih hd
  | nested elem most ih =>
      obtain ⟨inner, hinner, hd⟩ := Option.bind_eq_some_iff.1 hd
      cases hd
      exact List.cons_ne_nil _ _

/-- A type is read back from its bytes without its wrappers for null, however much
follows them. -/
theorem decodes_typeBytes {type : LogicalType} {elem : Bool} {d : Bytes}
    (hd : typeBytes elem type = some d) (hkept : type.Kept) {fuel : ℕ}
    (hfuel : d.length ≤ fuel) : Decodes (decodeTypeWithin fuel) d type.bare := by
  induction type using LogicalType.nest generalizing elem d fuel with
  | flat t hwrapped hnested =>
      have hbare : t.bare = t := by
        cases t with
        | nullable inner => exact absurd rfl (hwrapped inner)
        | _ => rfl
      have hpos : 0 < d.length := List.length_pos_of_ne_nil (typeBytes_ne_nil hd)
      obtain ⟨fuel, rfl⟩ := Nat.exists_eq_add_of_le' (hpos.trans_le hfuel)
      rw [hbare]
      exact decodes_flat hd hkept hwrapped hnested fuel
  | wrapped inner ih =>
      cases elem with
      | false => exact nomatch hd
      | true => exact ih hd hkept.2 hfuel
  | nested elem most ih =>
      obtain ⟨inner, hinner, hd⟩ := Option.bind_eq_some_iff.1 hd
      cases hd
      rw [List.length_append] at hfuel
      have hroom : inner.length + 1 ≤ fuel := by
        refine le_trans ?_ hfuel
        rw [List.length_append, List.length_cons]
        omega
      obtain ⟨fuel, rfl⟩ := Nat.exists_eq_add_of_le' ((Nat.le_add_left 1 _).trans hroom)
      exact decodes_list hkept.1 hkept.2 (ih hinner hkept.2 (Nat.le_of_succ_le_succ hroom))

theorem decodes_declared {type : LogicalType} {d : Bytes} (hd : declaredTypeBytes type = some d)
    (hkept : type.Kept) : Decodes decodeDeclaredType d type := by
  have hbare : type.bare = type := by
    cases type with
    | nullable inner => exact nomatch hd
    | _ => rfl
  intro rest
  have hfuel : d.length ≤ (d ++ rest).length := by
    rw [List.length_append]
    exact Nat.le_add_right _ _
  have hread := decodes_typeBytes hd hkept hfuel rest
  rwa [hbare] at hread

/-! ### What the reader gives -/

/-- A type the reader can have given: it is read back as itself, and is not wrapped. -/
def LogicalType.Read (t : LogicalType) : Prop := t.Kept ∧ t.isNullable = false

theorem gives_readBounded (kind : UInt8) : Gives (readBounded kind) LogicalType.Read := by
  intro bs t rest h
  obtain ⟨fixed, mid, -, h₁⟩ := reader_bind_ok.1 h
  obtain ⟨least, mid₁, hleast, h₂⟩ := reader_bind_ok.1 h₁
  obtain ⟨most, mid₂, hmost, h₃⟩ := reader_bind_ok.1 h₂
  split_ifs at h₃
  · cases reader_pure_ok.1 h₃
    exact ⟨⟨readBound_ne hleast, readBound_ne hmost⟩, rfl⟩
  · cases reader_pure_ok.1 h₃
    exact ⟨⟨readBound_ne hleast, readBound_ne hmost⟩, rfl⟩
  · exact (reader_throw_ok.1 h₃).elim

theorem gives_readList {readElem : Reader ZuError LogicalType}
    (helem : Gives readElem LogicalType.Read) : Gives (readList readElem) LogicalType.Read := by
  intro bs t rest h
  obtain ⟨notNull, mid, -, h₁⟩ := reader_bind_ok.1 h
  obtain ⟨most, mid₁, hmost, h₂⟩ := reader_bind_ok.1 h₁
  obtain ⟨elem, mid₂, hread, h₃⟩ := reader_bind_ok.1 h₂
  cases reader_pure_ok.1 h₃
  obtain ⟨hkept, hbare⟩ := helem hread
  refine ⟨⟨readBound_ne hmost, ?_⟩, rfl⟩
  cases notNull with
  | true => exact hkept
  | false => exact ⟨hbare, hkept⟩

theorem gives_readCode (code : UInt8) : Gives (readCode code) LogicalType.Read := by
  intro bs t rest h
  rw [readCode] at h
  cases hcode : codeType code with
  | none =>
      rw [hcode] at h
      exact (reader_throw_ok.1 h).elim
  | some type =>
      rw [hcode] at h
      cases reader_pure_ok.1 h
      exact codeType_kept hcode

theorem gives_readColumnList : Gives readColumnList LogicalType.Read := by
  intro bs t rest h
  obtain ⟨elem, mid, -, h₁⟩ := reader_bind_ok.1 h
  cases hcode : codeType elem with
  | none =>
      rw [hcode] at h₁
      exact (reader_throw_ok.1 h₁).elim
  | some type =>
      rw [hcode] at h₁
      cases reader_pure_ok.1 h₁
      exact ⟨⟨fun hmost => (nomatch hmost), (codeType_kept hcode).1⟩, rfl⟩

theorem gives_readExtended {readElem : Reader ZuError LogicalType}
    (helem : Gives readElem LogicalType.Read) :
    Gives (readExtended readElem) LogicalType.Read := by
  intro bs t rest h
  obtain ⟨kind, mid, -, h₁⟩ := reader_bind_ok.1 h
  split_ifs at h₁
  · cases reader_pure_ok.1 h₁
    exact ⟨trivial, rfl⟩
  · cases reader_pure_ok.1 h₁
    exact ⟨trivial, rfl⟩
  · cases reader_pure_ok.1 h₁
    exact ⟨trivial, rfl⟩
  · obtain ⟨precision, mid₁, -, h₂⟩ := reader_bind_ok.1 h₁
    obtain ⟨scale, mid₂, -, h₃⟩ := reader_bind_ok.1 h₂
    cases reader_pure_ok.1 h₃
    exact ⟨trivial, rfl⟩
  · exact gives_readList helem h₁
  · exact gives_readBounded kind h₁

theorem gives_decodeTypeWithin (fuel : ℕ) :
    Gives (decodeTypeWithin fuel) LogicalType.Read := by
  induction fuel with
  | zero => exact fun bs t rest h => (reader_throw_ok.1 h).elim
  | succ fuel ih =>
      intro bs t rest h
      obtain ⟨code, mid, -, h₁⟩ := reader_bind_ok.1 h
      split_ifs at h₁
      · exact gives_readColumnList h₁
      · exact gives_readExtended ih h₁
      · exact gives_readCode code h₁

theorem gives_decodeDeclaredType : Gives decodeDeclaredType LogicalType.Kept :=
  fun bs _ _ h => (gives_decodeTypeWithin bs.length h).1

/-! ### The writer's own spelling -/

/-- Reads a declared type in the writer's own spelling, and refuses any other. -/
def spelledType : Reader ZuError LogicalType := fun bs => do
  let out ← decodeDeclaredType bs
  if bs = typeSpelling out.1 ++ out.2 then return out
  else throw (corruptProps "a type in a spelling of its own")

theorem spelledType_ok {bs rest : Bytes} {type : LogicalType}
    (h : spelledType bs = .ok (type, rest)) :
    decodeDeclaredType bs = .ok (type, rest) ∧ bs = typeSpelling type ++ rest := by
  rw [spelledType] at h
  cases hread : decodeDeclaredType bs with
  | error err =>
      rw [hread] at h
      exact nomatch h
  | ok out =>
      rw [hread, ok_bind] at h
      split_ifs at h with hbs
      cases h
      exact ⟨rfl, hbs⟩

theorem spells_spelledType : Spells spelledType typeSpelling :=
  fun _ _ _ h => (spelledType_ok h).2

theorem gives_spelledType : Gives spelledType LogicalType.Kept :=
  fun _ _ _ h => gives_decodeDeclaredType (spelledType_ok h).1

theorem typeSpelling_eq {type : LogicalType} {d : Bytes} (hd : declaredTypeBytes type = some d) :
    typeSpelling type = d := by
  rw [typeSpelling, hd]
  rfl

theorem decodes_spelling {type : LogicalType} (hd : (declaredTypeBytes type).isSome)
    (hkept : type.Kept) : Decodes decodeDeclaredType (typeSpelling type) type := by
  obtain ⟨d, hd⟩ := Option.isSome_iff_exists.1 hd
  rw [typeSpelling_eq hd]
  exact decodes_declared hd hkept

theorem decodes_spelledType {type : LogicalType} (hd : (declaredTypeBytes type).isSome)
    (hkept : type.Kept) : Decodes spelledType (typeSpelling type) type := by
  intro rest
  rw [spelledType, decodes_spelling hd hkept rest, ok_bind, if_pos rfl]
  rfl

end Zu.Schema
