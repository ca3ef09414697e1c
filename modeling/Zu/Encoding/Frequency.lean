import Zu.Encoding.Rle
import Zu.Encoding.Counts

/-!
# A value that dominates

The dominant value is stored once, and everything else is an exception put back by
position. The positions and the exceptions are each in a frame of reference, and
the decoder pulls the chunks of both in lockstep.
-/

namespace Zu.Encoding

open Lib ForBitpack

namespace Frequency

def top (values : List Word) : Word := if values = [] then 0 else (count values values.length).top

def exceptionsFrom (top : Word) : ℕ → List Word → List (ℕ × Word)
  | _, [] => []
  | i, v :: values =>
      if v = top then exceptionsFrom top (i + 1) values
      else (i, v) :: exceptionsFrom top (i + 1) values

def exceptions (values : List Word) : List (ℕ × Word) := exceptionsFrom (top values) 0 values

def positions (values : List Word) : List Word :=
  (exceptions values).map fun e => BitVec.ofNat 64 e.1

def positionsBuf (values : List Word) : Bytes := ForBitpack.encode (positions values)

def valuesBuf (values : List Word) : Bytes := ForBitpack.encode ((exceptions values).map Prod.snd)

/-- `frequency::encode`. Its header has four bytes for how long the first container is. -/
def encode (values : List Word) : Bytes :=
  leBytes 4 values.length ++ (leBytes 8 (top values).toNat ++
    (leBytes 4 (positionsBuf values).length ++ (positionsBuf values ++ valuesBuf values)))

def putBack (count : ℕ) (out : List Word) : List (Word × Word) → Except ZuError (List Word)
  | [] => .ok out
  | (pos, v) :: rest =>
      if count ≤ pos.toNat then .error (.corrupt "frequency" "position past the value count")
      else putBack count (out.set pos.toNat v) rest

/-- `frequency::decode`: the values it appends to `out`. -/
def decode (bytes : Bytes) (maxValues : ℕ) : Except ZuError (List Word) := do
  if bytes.length < 16 then throw (.corrupt "frequency" "truncated header")
  let count := fromLe (bytes.take 4)
  let top := BitVec.ofNat 64 (fromLe ((bytes.drop 4).take 8))
  let positionsLen := fromLe ((bytes.drop 12).take 4)
  if maxValues < count then throw (.corrupt "frequency" "count above the caller ceiling")
  if bytes.length < 16 + positionsLen then throw (.corrupt "frequency" "truncated positions")
  let positions ← ChunkCursor.new ((bytes.drop 16).take positionsLen) count
  let values ← ChunkCursor.new (bytes.drop (16 + positionsLen)) count
  if positions.count ≠ values.count then
    throw (.corrupt "frequency" "stream length mismatch")
  lockstep (.corrupt "frequency" "value stream ended early") (putBack count)
    positions.remaining positions values (List.replicate count top)

/-! ### Exceptions -/

section

variable (count : ℕ)

theorem putBack_append (out : List Word) (ps qs : List (Word × Word)) :
    putBack count out (ps ++ qs) = putBack count out ps >>= fun out => putBack count out qs := by
  induction ps generalizing out with
  | nil => rfl
  | cons p ps ih =>
      rw [List.cons_append, putBack, putBack]
      split
      · rfl
      · exact ih _

/-- The exceptions go back where they were. The induction is on the values, over
what is already in place. -/
theorem putBack_exceptionsFrom (hcount : count < 2 ^ 64) (top : Word) (done values : List Word)
    (hlen : done.length + values.length = count) :
    putBack count (done ++ List.replicate values.length top)
        ((exceptionsFrom top done.length values).map fun e => (BitVec.ofNat 64 e.1, e.2)) =
      .ok (done ++ values) := by
  induction values generalizing done with
  | nil => rfl
  | cons v values ih =>
      rw [List.length_cons] at hlen
      have hnext := ih (done ++ [v]) (by
        rw [List.length_append, List.length_singleton]
        omega)
      rw [List.length_append, List.length_singleton, List.append_assoc, List.append_assoc,
        List.singleton_append, List.singleton_append] at hnext
      rw [exceptionsFrom, List.length_cons, List.replicate_succ]
      split
      · rename_i hv
        rw [← hv] at hnext ⊢
        exact hnext
      · have hpos : (BitVec.ofNat 64 done.length).toNat = done.length := by
          rw [BitVec.toNat_ofNat, Nat.mod_eq_of_lt (by omega)]
        rw [List.map_cons, putBack, hpos, if_neg (by omega),
          List.set_append_right _ _ le_rfl, Nat.sub_self, List.set_cons_zero]
        exact hnext

theorem length_exceptionsFrom (top : Word) (i : ℕ) (values : List Word) :
    (exceptionsFrom top i values).length + values.count top = values.length := by
  induction values generalizing i with
  | nil => rfl
  | cons v values ih =>
      have hrest := ih (i + 1)
      rw [exceptionsFrom, List.count_cons, List.length_cons]
      by_cases hv : v = top
      · rw [if_pos hv, if_pos (beq_iff_eq.2 hv)]
        omega
      · rw [if_neg hv, if_neg (fun h => hv (beq_iff_eq.1 h)), List.length_cons]
        omega

end

theorem length_exceptions_le (values : List Word) :
    (exceptions values).length ≤ values.length := by
  have h := length_exceptionsFrom (top values) 0 values
  rw [exceptions]
  omega

/-! ### Reading back what was written -/

theorem length_header (values : List Word) : 16 ≤ (encode values).length := by
  rw [encode, List.length_append, List.length_append, List.length_append, length_leBytes,
    length_leBytes, length_leBytes]
  omega

theorem take_header (values : List Word) :
    (encode values).take 4 = leBytes 4 values.length := by
  rw [encode, List.take_left' (length_leBytes 4 _)]

theorem top_header (values : List Word) :
    ((encode values).drop 4).take 8 = leBytes 8 (top values).toNat := by
  rw [encode, List.drop_left' (length_leBytes 4 _), List.take_left' (length_leBytes 8 _)]

theorem drop_header (values : List Word) :
    ((encode values).drop 12).take 4 = leBytes 4 (positionsBuf values).length := by
  rw [encode, ← List.append_assoc, List.drop_left' (by simp), List.take_left' (length_leBytes 4 _)]

theorem drop_sixteen (values : List Word) :
    (encode values).drop 16 = positionsBuf values ++ valuesBuf values := by
  rw [encode, ← List.append_assoc, ← List.append_assoc, List.drop_left' (by simp)]

section

variable {values : List Word} (h : values.length < 2 ^ 32)

include h

theorem decode_encode (hfits : (positionsBuf values).length < 2 ^ 32) {maxValues : ℕ}
    (hmax : values.length ≤ maxValues) : decode (encode values) maxValues = .ok values := by
  have hlen : fromLe (leBytes 4 (positionsBuf values).length) = (positionsBuf values).length :=
    fromLe_leBytes_of_lt hfits
  have hcount : fromLe (leBytes 4 values.length) = values.length := fromLe_leBytes_of_lt h
  have hexc := length_exceptions_le values
  have htotal : (encode values).length =
      16 + (positionsBuf values).length + (valuesBuf values).length := by
    rw [← List.take_append_drop 16 (encode values), drop_sixteen, List.length_append,
      List.length_take_of_le (length_header values), List.length_append, Nat.add_assoc]
  have hrest : (encode values).drop (16 + (positionsBuf values).length) = valuesBuf values := by
    rw [← List.drop_drop, drop_sixteen, List.drop_left' rfl]
  have hfirst := @new_encode (positions values)
    (by rw [positions, List.length_map]; omega) [] values.length
    (by rwa [positions, List.length_map])
  have hsecond := @new_encode ((exceptions values).map Prod.snd)
    (by rw [List.length_map]; omega) [] values.length (by rwa [List.length_map])
  rw [List.append_nil] at hfirst hsecond
  have hstep : lockstep (.corrupt "frequency" "value stream ended early") (putBack values.length)
      (positions values).length (cursorAt (positions values).length (positions values) [])
      (cursorAt ((exceptions values).map Prod.snd).length ((exceptions values).map Prod.snd) [])
      (List.replicate values.length (top values)) =
        putBack values.length (List.replicate values.length (top values))
          ((positions values).zip ((exceptions values).map Prod.snd)) :=
    lockstep_cursorAt (fun _ => rfl) (fun out ps qs => putBack_append _ out ps qs) _ _
      (by rw [positions, List.length_map, List.length_map]) [] [] le_rfl _
  have hback := putBack_exceptionsFrom values.length (by omega) (top values) [] values
    (Nat.zero_add _)
  rw [decode, if_neg (not_lt.2 (length_header values))]
  simp only [take_header, top_header, drop_header, drop_sixteen, hlen, hcount, word_fromLe]
  rw [if_neg (not_lt.2 hmax), if_neg (by omega), List.take_left' rfl, hrest, positionsBuf, hfirst,
    valuesBuf, hsecond]
  simp only [ok_bind]
  rw [if_neg (by rw [cursorAt, cursorAt, positions, List.length_map, List.length_map]; simp)]
  refine hstep.trans ?_
  rw [positions, List.zip_map']
  exact hback

theorem decode_encode_over {maxValues : ℕ} (hmax : maxValues < values.length) :
    ∃ e, decode (encode values) maxValues = .error e := by
  have hcount : fromLe (leBytes 4 values.length) = values.length := fromLe_leBytes_of_lt h
  rw [decode, if_neg (not_lt.2 (length_header values))]
  simp only [take_header, hcount]
  rw [if_pos hmax]
  exact ⟨_, rfl⟩

end

end Frequency

end Zu.Encoding
