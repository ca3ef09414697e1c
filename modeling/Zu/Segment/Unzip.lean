import Zu.Segment.FullZip

/-!
# What a blob payload holds

A payload that is read whole holds strings, a list of them for each chunk, and is read
whole if it does. What a reader appends is those strings and where each ends.
-/

namespace Zu.Segment

open Lib Encoding

namespace FullZip

/-! ### What readers append -/

def Out.pushAll (out : Out) (vs : List Bytes) : Out := vs.foldl Out.push out

@[simp] theorem pushAll_nil (out : Out) : out.pushAll [] = out := rfl

@[simp] theorem pushAll_cons (out : Out) (v : Bytes) (vs : List Bytes) :
    out.pushAll (v :: vs) = (out.push v).pushAll vs := rfl

theorem pushAll_append (out : Out) (vs ws : List Bytes) :
    out.pushAll (vs ++ ws) = (out.pushAll vs).pushAll ws := List.foldl_append

theorem bytes_pushAll (out : Out) (vs : List Bytes) :
    (out.pushAll vs).bytes = out.bytes ++ vs.flatten := by
  induction vs generalizing out with
  | nil => exact (List.append_nil _).symm
  | cons v vs ih => rw [pushAll_cons, ih, Out.push, List.flatten_cons, List.append_assoc]

/-- The vectors go on from `out`. -/
def Out.Extends (out out' : Out) : Prop := out.bytes <+: out'.bytes ∧ out.ends <+: out'.ends

theorem Out.Extends.refl (out : Out) : out.Extends out := ⟨List.prefix_refl _, List.prefix_refl _⟩

theorem Out.Extends.push {out out' : Out} (h : out.Extends out') (v : Bytes) :
    out.Extends (out'.push v) :=
  ⟨h.1.trans (List.prefix_append _ _), h.2.trans (List.prefix_append _ _)⟩

/-- Cut back, they are as they were. -/
theorem Out.Extends.take {out out' : Out} (h : out.Extends out') :
    ({ bytes := out'.bytes.take out.bytes.length, ends := out'.ends.take out.ends.length } : Out) =
      out := by
  rw [← List.prefix_iff_eq_take.1 h.1, ← List.prefix_iff_eq_take.1 h.2]

/-- A reader that only appends. -/
def Appends {ε α : Type} (x : Fallible ε Out α) : Prop :=
  ∀ out : Out, Triple out.Extends x (fun _ => out.Extends) out.Extends

theorem appends_pushIf (c : Prop) [Decidable c] (v : Bytes) : Appends (pushIf c v) := fun _ =>
  Triple.ite (fun _ => Triple.update fun _ h => h.push v) fun _ => Triple.pure fun _ h => h

theorem appends_unzipFrom (z : Bytes) (lo hi n row pos : ℕ) : Appends (unzipFrom z lo hi n row pos) := by
  intro out
  induction n generalizing row pos with
  | zero => exact Triple.pure fun _ h => h
  | succ n ih =>
      rw [unzipFrom]
      apply Triple.ite
      · exact fun _ => Triple.throw fun _ h => h
      · intro _
        apply Triple.ite
        · exact fun _ => Triple.throw fun _ h => h
        · intro _
          exact (appends_pushIf _ _ out).bind fun _ => ih _ _

theorem appends_liftExcept {ε α : Type} (x : Except ε α) :
    Appends (liftExcept x : Fallible ε Out α) := by
  intro out
  cases x with
  | ok a => exact Triple.pure fun _ h => h
  | error e => exact Triple.throw fun _ h => h

theorem Appends.bind {ε α β : Type} {x : Fallible ε Out α} {f : α → Fallible ε Out β}
    (hx : Appends x) (hf : ∀ a, Appends (f a)) : Appends (x >>= f) := fun out =>
  (hx out).bind fun a => hf a out

theorem appends_unless {c : Prop} [Decidable c] (e : ZuError) :
    Appends (if c then throw e else pure ⟨⟩ : Fallible ZuError Out PUnit) := fun _ =>
  Triple.ite (fun _ => Triple.throw fun _ h => h) fun _ => Triple.pure fun _ h => h

theorem appends_unzipRows (z : Bytes) (total lo hi : ℕ) (strict : Bool) :
    Appends (unzipRows z total lo hi strict) :=
  (appends_unzipFrom z lo hi _ 0 0).bind fun _ => appends_unless _

theorem appends_decodeChunks (payload : Bytes) (valueCount total n i prevComp prevRaw : ℕ) :
    Appends (decodeChunks payload valueCount total n i prevComp prevRaw) := by
  induction n generalizing i prevComp prevRaw with
  | zero => exact fun _ => Triple.pure fun _ h => h
  | succ n ih =>
      rw [decodeChunks]
      apply Appends.bind (appends_liftExcept _)
      intro z
      apply Appends.bind (appends_unzipRows _ _ _ _ _)
      intro _
      exact ih _ _ _

/-- A reader that cuts back what it appended leaves the vectors as they were when it
fails. -/
theorem orTruncate_error {α : Type} {x : Fallible ZuError Out α} (hx : Appends x) {out out' : Out}
    {e : ZuError} (h : (orTruncate x).exec out = (.error e, out')) : out' = out := by
  rw [Fallible.exec, orTruncate] at h
  cases hrun : x.exec out with
  | mk r s =>
      rw [hrun] at h
      cases r with
      | ok a => cases congrArg Prod.fst h
      | error e' =>
          have hs := ((hx out) out (Out.Extends.refl out)).2 e' s hrun
          rw [← (Prod.mk.inj h).2]
          exact hs.take

theorem orTruncate_ok {α : Type} {x : Fallible ZuError Out α} {out out' : Out} {a : α} :
    (orTruncate x).exec out = (.ok a, out') ↔ x.exec out = (.ok a, out') := by
  rw [Fallible.exec, orTruncate]
  cases x.exec out with
  | mk r s =>
      cases r with
      | ok b => exact Iff.rfl
      | error e =>
          constructor
          · intro h
            cases congrArg Prod.fst h
          · intro h
            cases congrArg Prod.fst h

/-! ### What they append -/

/-- The strings of the rows `lo..hi`, the first of them being the row `row`. -/
def picked (lo hi : ℕ) : ℕ → List Bytes → List Bytes
  | _, [] => []
  | row, v :: vs =>
      if lo ≤ row ∧ row < hi then v :: picked lo hi (row + 1) vs else picked lo hi (row + 1) vs

theorem picked_eq (lo hi row : ℕ) (vs : List Bytes) :
    picked lo hi row vs = (vs.take (hi - row)).drop (lo - row) := by
  induction vs generalizing row with
  | nil => simp [picked]
  | cons v vs ih =>
      rw [picked, ih]
      split
      case isTrue h =>
        have hhi : hi - row = (hi - (row + 1)) + 1 := by omega
        have hlo : lo - row = 0 := by omega
        have hlo' : lo - (row + 1) = 0 := by omega
        rw [hhi, hlo, hlo', List.take_succ_cons, List.drop_zero, List.drop_zero]
      case isFalse h =>
        by_cases hrow : row < hi
        · have hhi : hi - row = (hi - (row + 1)) + 1 := by omega
          have hlo : lo - row = (lo - (row + 1)) + 1 := by omega
          rw [hhi, hlo, List.take_succ_cons, List.drop_succ_cons]
        · have hhi : hi - row = 0 := by omega
          have hhi' : hi - (row + 1) = 0 := by omega
          rw [hhi, hhi', List.take_zero, List.take_zero, List.drop_nil, List.drop_nil]

theorem exec_pushIf (c : Prop) [Decidable c] (v : Bytes) (out : Out) :
    (pushIf c v).exec out = (.ok (), if c then out.push v else out) := by
  rw [pushIf]
  split <;> rfl

/-- Every string is short enough for its length to be told. -/
def Short (vs : List Bytes) : Prop := ∀ v ∈ vs, v.length < 2 ^ 32

theorem length_zipped (v : Bytes) : (zipped v).length = 4 + v.length := by
  rw [zipped, List.length_append, length_leBytes]

/-- A string in front of what is left, and the string the walk takes off it. -/
theorem take_zipped {z rest v : Bytes} {pos : ℕ} (hv : v.length < 2 ^ 32)
    (h : z.drop pos = zipped v ++ rest) :
    field z pos 4 = v.length ∧ pos + 4 + v.length ≤ z.length ∧
      (z.drop (pos + 4)).take v.length = v ∧ z.drop (pos + 4 + v.length) = rest := by
  have hlen := congrArg List.length h
  rw [List.length_append, length_zipped, List.length_drop] at hlen
  have hbody : z.drop (pos + 4) = v ++ rest := by
    rw [← List.drop_drop, h, zipped, List.append_assoc]
    exact List.drop_left' (length_leBytes 4 _)
  constructor
  · rw [field, h, zipped, List.append_assoc, List.take_left' (length_leBytes 4 _)]
    exact fromLe_leBytes_of_lt hv
  · constructor
    · omega
    · constructor
      · rw [hbody, List.take_left]
      · rw [← List.drop_drop, hbody, List.drop_left]

theorem zipped_take {z : Bytes} {pos : ℕ} (h : pos + 4 + field z pos 4 ≤ z.length) :
    ((z.drop (pos + 4)).take (field z pos 4)).length = field z pos 4 ∧
      z.drop pos = zipped ((z.drop (pos + 4)).take (field z pos 4)) ++
        z.drop (pos + 4 + field z pos 4) := by
  have hlen : ((z.drop (pos + 4)).take (field z pos 4)).length = field z pos 4 := by
    rw [List.length_take, List.length_drop]
    omega
  have hfour : ((z.drop pos).take 4).length = 4 := by
    rw [List.length_take, List.length_drop]
    omega
  constructor
  · exact hlen
  · have hhead : leBytes 4 (field z pos 4) = (z.drop pos).take 4 := leBytes_fromLe_of_length hfour
    have hfirst := List.take_append_drop 4 (z.drop pos)
    have hsecond := List.take_append_drop (field z pos 4) (z.drop (pos + 4))
    rw [List.drop_drop] at hfirst hsecond
    rw [zipped, hlen, hhead, List.append_assoc, hsecond, hfirst]

/-- The walk takes strings off one after another. -/
theorem unzipFrom_ok {z : Bytes} {lo hi n row pos p : ℕ} {out out' : Out} :
    (unzipFrom z lo hi n row pos).exec out = (.ok p, out') ↔
      ∃ vs, vs.length = n ∧ Short vs ∧ p = pos + (vs.flatMap zipped).length ∧
        z.drop pos = vs.flatMap zipped ++ z.drop p ∧ out' = out.pushAll (picked lo hi row vs) := by
  induction n generalizing row pos out with
  | zero =>
      constructor
      · intro h
        obtain ⟨hp, hout⟩ := Prod.mk.inj h
        cases hp
        exact ⟨[], rfl, fun _ hv => absurd hv List.not_mem_nil, rfl, rfl, hout.symm⟩
      · rintro ⟨vs, hlen, -, hp, -, hout⟩
        have hvs := List.eq_nil_of_length_eq_zero hlen
        subst hvs
        subst hp
        subst hout
        rfl
  | succ n ih =>
      rw [unzipFrom]
      split
      case isTrue hshort =>
        constructor
        · intro h
          exact nomatch (congrArg Prod.fst h)
        · rintro ⟨vs, hlen, -, -, hz, -⟩
          obtain ⟨v, vs, rfl⟩ := List.exists_cons_of_length_eq_add_one hlen
          have hbytes := congrArg List.length hz
          rw [List.flatMap_cons, List.length_append, List.length_append, length_zipped,
            List.length_drop] at hbytes
          omega
      case isFalse hlong =>
        split
        case isTrue hshort =>
          constructor
          · intro h
            exact nomatch (congrArg Prod.fst h)
          · rintro ⟨vs, hlen, hvs, -, hz, -⟩
            obtain ⟨v, vs, rfl⟩ := List.exists_cons_of_length_eq_add_one hlen
            rw [List.flatMap_cons, List.append_assoc] at hz
            obtain ⟨hfield, hin, -⟩ := take_zipped (hvs v List.mem_cons_self) hz
            omega
        case isFalse hrow =>
          rw [exec_bind, exec_pushIf]
          obtain ⟨hlen, hsplit⟩ := zipped_take (Nat.le_of_not_lt hrow)
          refine ih.trans ?_
          constructor
          · rintro ⟨vs, hcount, hvs, hp, hz, hout⟩
            refine ⟨(z.drop (pos + 4)).take (field z pos 4) :: vs, congrArg (· + 1) hcount, ?_, ?_, ?_, ?_⟩
            · exact List.forall_mem_cons.2 ⟨by rw [hlen]; exact SegmentMeta.field_lt z pos 4, hvs⟩
            · rw [hp, List.flatMap_cons, List.length_append, length_zipped, hlen]
              omega
            · rw [List.flatMap_cons, List.append_assoc, ← hz]
              exact hsplit
            · rw [hout, picked]
              split <;> rfl
          · rintro ⟨vs, hcount, hvs, hp, hz, hout⟩
            obtain ⟨v, vs, rfl⟩ := List.exists_cons_of_length_eq_add_one hcount
            rw [List.flatMap_cons, List.append_assoc] at hz
            obtain ⟨hshort, hrest⟩ := List.forall_mem_cons.1 hvs
            obtain ⟨hfield, hin, htake, hdrop⟩ := take_zipped hshort hz
            rw [hfield, htake]
            refine ⟨vs, Nat.succ.inj hcount, hrest, ?_, hdrop, ?_⟩
            · rw [hp, List.flatMap_cons, List.length_append, length_zipped]
              omega
            · rw [hout, picked]
              split <;> rfl

theorem picked_all {n : ℕ} {vs : List Bytes} (h : vs.length = n) : picked 0 n 0 vs = vs := by
  rw [picked_eq, Nat.sub_self, List.drop_zero, Nat.sub_zero, List.take_of_length_le h.le]

theorem unzipRows_strict {z : Bytes} {total lo hi : ℕ} {out out' : Out} :
    (unzipRows z total lo hi true).exec out = (.ok (), out') ↔
      ∃ vs, vs.length = total ∧ Short vs ∧ z = vs.flatMap zipped ∧
        out' = out.pushAll (picked lo hi 0 vs) := by
  rw [unzipRows, exec_bind, if_pos rfl]
  cases hwalk : (unzipFrom z lo hi total 0 0).exec out with
  | mk r s =>
      cases r with
      | error e =>
          constructor
          · intro h
            exact nomatch (congrArg Prod.fst h)
          · rintro ⟨vs, hlen, hvs, hz, -⟩
            have hok := (@unzipFrom_ok z lo hi total 0 0 z.length out _).2
              ⟨vs, hlen, hvs, by rw [hz, Nat.zero_add], by simp [hz], rfl⟩
            rw [hwalk] at hok
            exact nomatch (congrArg Prod.fst hok)
      | ok p =>
          obtain ⟨vs, hlen, hvs, hp, hz, hout⟩ := unzipFrom_ok.1 hwalk
          rw [List.drop_zero] at hz
          rw [Nat.zero_add] at hp
          by_cases hend : p = z.length
          · have hall : z = vs.flatMap zipped := by
              rw [hend, List.drop_length, List.append_nil] at hz
              exact hz
            simp only [hend, ne_eq, not_true_eq_false, and_false, if_false]
            constructor
            · intro h
              rw [exec_pure] at h
              exact ⟨vs, hlen, hvs, hall, by rw [← (Prod.mk.inj h).2, hout]⟩
            · rintro ⟨ws, hlen', hws, hz', hout'⟩
              have hok := (@unzipFrom_ok z lo hi total 0 0 z.length out _).2
                ⟨ws, hlen', hws, by rw [hz', Nat.zero_add], by simp [hz'], rfl⟩
              rw [hwalk] at hok
              rw [exec_pure, hout', (Prod.mk.inj hok).2]
          · have hcut : True ∧ p ≠ z.length := ⟨trivial, hend⟩
            simp only [hend, ne_eq, not_false_eq_true, and_self, if_true]
            constructor
            · intro h
              exact nomatch (congrArg Prod.fst h)
            · rintro ⟨ws, hlen', hws, hz', -⟩
              have hok := (@unzipFrom_ok z lo hi total 0 0 z.length out _).2
                ⟨ws, hlen', hws, by rw [hz', Nat.zero_add], by simp [hz'], rfl⟩
              rw [hwalk] at hok
              exact absurd (Except.ok.inj (Prod.mk.inj hok).1) hend

theorem unzipRows_lax {vs : List Bytes} (hvs : Short vs) {total lo hi : ℕ} (hhi : hi ≤ vs.length)
    (out : Out) :
    (unzipRows (vs.flatMap zipped) total lo hi false).exec out =
      (.ok (), out.pushAll ((vs.take hi).drop lo)) := by
  have hok := (@unzipFrom_ok (vs.flatMap zipped) lo hi hi 0 0 ((vs.take hi).flatMap zipped).length
    out _).2 ⟨vs.take hi, List.length_take_of_le hhi,
      fun v hv => hvs v (List.mem_of_mem_take hv), (Nat.zero_add _).symm, by
        have hsplit : vs.flatMap zipped = (vs.take hi).flatMap zipped ++ (vs.drop hi).flatMap zipped := by
          rw [← List.flatMap_append, List.take_append_drop]
        rw [List.drop_zero, hsplit, List.drop_left], rfl⟩
  rw [unzipRows, exec_bind, if_neg (by simp), hok]
  simp [exec_pure, picked_eq, List.take_take]

/-- The chunks from `i` on hold these strings, and the last of them ends at `c`. -/
def ChunksFrom (payload : Bytes) (valueCount total : ℕ) : ℕ → ℕ → ℕ → List (List Bytes) → ℕ → Prop
  | _, prevComp, _, [], c => c = prevComp
  | i, prevComp, prevRaw, vs :: vss, c =>
      vs.length = min (valueCount - i * chunkRows) chunkRows ∧ Short vs ∧
        chunkAt (payload.drop (4 + total * 16)) prevComp (compEnd payload i) prevRaw
          (rawEnd payload total i) = .ok (vs.flatMap zipped) ∧
        ChunksFrom payload valueCount total (i + 1) (compEnd payload i) (rawEnd payload total i) vss c

theorem exec_liftExcept {ε α : Type} (x : Except ε α) (out : Out) :
    (liftExcept x : Fallible ε Out α).exec out = (x, out) := by
  cases x <;> rfl

theorem exec_liftExcept_bind {ε α β : Type} (a : α) (f : α → Fallible ε Out β) (out : Out) :
    (liftExcept (Except.ok a : Except ε α) >>= f).exec out = (f a).exec out := by
  rw [exec_bind, exec_liftExcept]

theorem exec_liftExcept_ok {ε α : Type} (a : α) (out : Out) :
    (liftExcept (Except.ok a : Except ε α) : Fallible ε Out α).exec out = (.ok a, out) := rfl

theorem exec_liftExcept_error {ε α : Type} (e : ε) (out : Out) :
    (liftExcept (Except.error e : Except ε α) : Fallible ε Out α).exec out = (.error e, out) := rfl

theorem decodeChunks_ok {payload : Bytes} {valueCount total n i prevComp prevRaw c : ℕ}
    {out out' : Out} :
    (decodeChunks payload valueCount total n i prevComp prevRaw).exec out = (.ok c, out') ↔
      ∃ vss, vss.length = n ∧ ChunksFrom payload valueCount total i prevComp prevRaw vss c ∧
        out' = out.pushAll vss.flatten := by
  induction n generalizing i prevComp prevRaw out with
  | zero =>
      constructor
      · intro h
        obtain ⟨hc, hout⟩ := Prod.mk.inj h
        exact ⟨[], rfl, (Except.ok.inj hc).symm, hout.symm⟩
      · rintro ⟨vss, hlen, hchunks, hout⟩
        have hnil := List.eq_nil_of_length_eq_zero hlen
        subst hnil
        subst hout
        rw [ChunksFrom] at hchunks
        subst hchunks
        rfl
  | succ n ih =>
      rw [decodeChunks, exec_bind]
      constructor
      · intro h
        cases hz : chunkAt (payload.drop (4 + total * 16)) prevComp (compEnd payload i) prevRaw
            (rawEnd payload total i) with
        | error e =>
            rw [hz, exec_liftExcept_error] at h
            exact nomatch (congrArg Prod.fst h)
        | ok z =>
            rw [hz, exec_liftExcept_ok] at h
            obtain ⟨_, s, hrows, hrest⟩ := exec_bind_ok h
            obtain ⟨vs, hlen, hvs, hzip, hs⟩ := unzipRows_strict.1 hrows
            obtain ⟨vss, hcount, hchunks, hout⟩ := ih.1 hrest
            refine ⟨vs :: vss, congrArg (· + 1) hcount, ⟨hlen, hvs, hzip ▸ hz, hchunks⟩, ?_⟩
            rw [hout, hs, picked_all hlen, List.flatten_cons, pushAll_append]
      · rintro ⟨vss, hcount, hchunks, hout⟩
        obtain ⟨vs, vss, rfl⟩ := List.exists_cons_of_length_eq_add_one hcount
        obtain ⟨hlen, hvs, hz, hchunks⟩ := hchunks
        have hrows := (@unzipRows_strict (vs.flatMap zipped) _ 0 (min (valueCount - i * chunkRows) chunkRows)
          out _).2 ⟨vs, hlen, hvs, rfl, rfl⟩
        rw [hz, exec_liftExcept_ok]
        dsimp only
        rw [exec_bind, hrows]
        refine ih.2 ⟨vss, Nat.succ.inj hcount, hchunks, ?_⟩
        rw [hout, picked_all hlen, List.flatten_cons, pushAll_append]

/-- The payload holds these strings, a list of them for each chunk. -/
structure Holds (payload : Bytes) (valueCount : ℕ) (vss : List (List Bytes)) : Prop where
  count : vss.length = divCeil valueCount chunkRows
  head : field payload 0 4 = vss.length
  long : 4 + vss.length * 16 ≤ payload.length
  chunks : ChunksFrom payload valueCount vss.length 0 0 0 vss
    (payload.drop (4 + vss.length * 16)).length

theorem decodePayload_ok {payload : Bytes} {valueCount uncompressedBytes : ℕ} {out out' : Out} :
    (decodePayload payload valueCount uncompressedBytes).exec out = (.ok (), out') ↔
      ∃ vss, Holds payload valueCount vss ∧ vss.flatten.flatten.length = uncompressedBytes ∧
        out' = out.pushAll vss.flatten := by
  have hcountOut : ∀ vs : List Bytes,
      (out.pushAll vs).bytes.length - out.bytes.length = vs.flatten.length := fun vs => by
    rw [bytes_pushAll, List.length_append, Nat.add_sub_cancel_left]
  rw [decodePayload, orTruncate_ok, exec_bind, exec_get]
  dsimp only
  constructor
  · intro h
    split_ifs at h with hshort hhead hlong
    · exact nomatch (congrArg Prod.fst h)
    · exact nomatch (congrArg Prod.fst h)
    · exact nomatch (congrArg Prod.fst h)
    · obtain ⟨c, s, hrun, hrest⟩ := exec_bind_ok h
      obtain ⟨vss, hcount, hchunks, hs⟩ := decodeChunks_ok.1 hrun
      split_ifs at hrest with hend
      · exact nomatch (congrArg Prod.fst hrest)
      · rw [exec_bind, exec_get] at hrest
        dsimp only at hrest
        split_ifs at hrest with hbytes
        · exact nomatch (congrArg Prod.fst hrest)
        · refine ⟨vss, ⟨hcount, ?_, ?_, ?_⟩, ?_, ?_⟩
          · rw [hcount]
            exact not_not.1 hhead
          · rw [hcount]
            exact Nat.le_of_not_lt hlong
          · rw [hcount, ← not_not.1 hend]
            exact hchunks
          · rw [← hcountOut, ← hs]
            exact not_not.1 hbytes
          · rw [← hs]
            exact (Prod.mk.inj hrest).2.symm
  · rintro ⟨vss, hholds, hbytes, rfl⟩
    have hhead := hholds.head
    have hlong := hholds.long
    have hchunks := hholds.chunks
    rw [hholds.count] at hhead hlong hchunks
    have hrun := (@decodeChunks_ok payload valueCount (divCeil valueCount chunkRows)
      (divCeil valueCount chunkRows) 0 0 0 _ out _).2 ⟨vss, hholds.count, hchunks, rfl⟩
    rw [if_neg (by omega), if_neg (not_not.2 hhead), if_neg (by omega), exec_bind, hrun]
    dsimp only
    rw [if_neg (not_not.2 rfl), exec_bind, exec_get]
    dsimp only
    rw [if_neg (not_not.2 (by rw [hcountOut, hbytes])), exec_pure]

end FullZip

end Zu.Segment
