import Zu.Encoding.SymbolTable
import Zu.Common.Error
import Zu.Lib.Fallible

/-!
# Symbol compression of strings

A buffer is the length of what it holds, the table, and a code for each match; a byte
that starts no symbol is escaped. The decoder sizes its output by the length in the
header and eight bytes of slack, so every symbol is one write of eight bytes, and what a
write puts past its symbol the next one covers. The header has four bytes for the
length, so a string of `2 ^ 32` bytes or more does not come back.
-/

namespace Zu.Encoding

open Lib

namespace Fsst

def escape : UInt8 := 255

def corrupt (detail : String) : ZuError := .corrupt "fsst" detail

/-- The codes from `pos` on; a match is at least one byte. -/
def encodeFrom (x : Index) (bytes : Bytes) : ℕ → ℕ → Bytes
  | 0, _ => []
  | fuel + 1, pos =>
      if pos < bytes.length then
        match x.bestMatch bytes pos with
        | some (code, len) => UInt8.ofNat code :: encodeFrom x bytes fuel (pos + len)
        | none => escape :: (bytes.drop pos).headD 0 :: encodeFrom x bytes fuel (pos + 1)
      else []

def Table.header (t : Table) : Bytes :=
  UInt8.ofNat t.syms.length ::
    (t.syms.map (fun sym => UInt8.ofNat sym.length) ++ t.syms.flatten)

/-- `Table::encode`. Its header has four bytes for how long the string is. -/
def Table.encode (t : Table) (bytes : Bytes) : Bytes :=
  leBytes 4 bytes.length ++ (t.header ++ encodeFrom t.index bytes bytes.length 0)

/-- Cuts bytes into pieces of the given lengths. -/
def cut : List ℕ → Bytes → List Bytes
  | [], _ => []
  | n :: ns, bytes => bytes.take n :: cut ns (bytes.drop n)

/-- How many symbols a buffer says it has. -/
def symbolCount (bytes : Bytes) : ℕ := ((bytes.drop 4).headD 0).toNat

/-- How long it says they are. -/
def symbolLens (bytes : Bytes) : List ℕ :=
  ((bytes.drop 5).take (symbolCount bytes)).map UInt8.toNat

/-- The symbols of a buffer and the codes after them, which `Table::read` and `decode`
check alike. -/
def readSymbols (bytes : Bytes) : Except ZuError (List Bytes × Bytes) :=
  if bytes.length < 5 + symbolCount bytes then .error (corrupt "truncated symbol lengths")
  else if (symbolLens bytes).any (fun l => l = 0 ∨ maxSymbolLen < l) then
    .error (corrupt "symbol length outside 1..=8")
  else if bytes.length < 5 + symbolCount bytes + (symbolLens bytes).sum then
    .error (corrupt "truncated symbol bytes")
  else
    .ok (cut (symbolLens bytes) (bytes.drop (5 + symbolCount bytes)),
      bytes.drop (5 + symbolCount bytes + (symbolLens bytes).sum))

/-- A symbol as the decoder's table has it. -/
def pad (sym : Bytes) : Bytes := sym ++ zeros (maxSymbolLen - sym.length)

/-- Writes over a window of the output. -/
def store (dst : Bytes) (n : ℕ) (w : Bytes) : Bytes :=
  dst.take n ++ (w ++ dst.drop (n + w.length))

/-- The loop of `decode`: what is written and how far the output has come. -/
def expand (syms : List Bytes) : Bytes → Bytes → ℕ → Except ZuError (Bytes × ℕ)
  | [], dst, n => .ok (dst, n)
  | code :: payload, dst, n =>
      if code.toNat < syms.length then
        if dst.length < n + maxSymbolLen then .error (corrupt "decoded past the claimed length")
        else
          expand syms payload (store dst n (pad (syms.getD code.toNat [])))
            (n + (syms.getD code.toNat []).length)
      else if code = escape then
        match payload with
        | [] => .error (corrupt "payload ends inside an escape")
        | literal :: payload =>
            if dst.length ≤ n then .error (corrupt "decoded past the claimed length")
            else expand syms payload (store dst n [literal]) (n + 1)
      else .error (corrupt "code past the symbol count")

attribute [grind =] expand

/-- `decode`: the bytes it appends to `out`. -/
def decode (bytes : Bytes) (maxBytes : ℕ) : Except ZuError Bytes :=
  if bytes.length < 5 then .error (corrupt "truncated header")
  else if maxBytes < fromLe (bytes.take 4) then
    .error (corrupt "length above the caller ceiling")
  else do
    let found ← readSymbols bytes
    let done ← expand found.1 found.2 (zeros (fromLe (bytes.take 4) + maxSymbolLen)) 0
    if done.2 ≠ fromLe (bytes.take 4) then
      .error (corrupt "decoded length disagrees with the claim")
    else .ok (done.1.take (fromLe (bytes.take 4)))

/-! ### Reading a table -/

theorem length_cut (ns : List ℕ) (bytes : Bytes) : (cut ns bytes).length = ns.length := by
  induction ns generalizing bytes with
  | nil => rfl
  | cons n ns ih => rw [cut, List.length_cons, List.length_cons, ih]

theorem length_of_mem_cut {ns : List ℕ} {bytes sym : Bytes} (hsum : ns.sum ≤ bytes.length)
    (h : sym ∈ cut ns bytes) : sym.length ∈ ns := by
  induction ns generalizing bytes with
  | nil => exact absurd h List.not_mem_nil
  | cons n ns ih =>
      rw [List.sum_cons] at hsum
      rw [cut, List.mem_cons] at h
      rcases h with rfl | h
      · rw [List.length_take, min_eq_left (by omega)]
        exact List.mem_cons_self
      · refine List.mem_cons_of_mem n (ih ?_ h)
        rw [List.length_drop]
        omega

theorem cut_flatten (syms : List Bytes) (rest : Bytes) :
    cut (syms.map List.length) (syms.flatten ++ rest) = syms := by
  induction syms with
  | nil => rfl
  | cons sym syms ih =>
      rw [List.map_cons, List.flatten_cons, cut, List.append_assoc, List.take_left,
        List.drop_left, ih]

theorem symbolCount_lt (bytes : Bytes) : symbolCount bytes < 256 := UInt8.toNat_lt _

theorem length_symbolLens_le (bytes : Bytes) :
    (symbolLens bytes).length ≤ symbolCount bytes := by
  rw [symbolLens, List.length_map]
  exact List.length_take_le _ _

theorem readSymbols_symbols {bytes : Bytes} {found : List Bytes × Bytes}
    (h : readSymbols bytes = .ok found) : Symbols found.1 := by
  rw [readSymbols] at h
  split_ifs at h with hshort hbad hcut
  rw [Except.ok.injEq] at h
  have hmem : ∀ sym ∈ found.1, 1 ≤ sym.length ∧ sym.length ≤ maxSymbolLen := by
    rw [← h]
    intro sym hsym
    have hl : sym.length ∈ symbolLens bytes := by
      apply length_of_mem_cut _ hsym
      rw [List.length_drop]
      omega
    have hgood : ¬ (sym.length = 0 ∨ maxSymbolLen < sym.length) := fun hor =>
      hbad (List.any_eq_true.2 ⟨_, hl, decide_eq_true hor⟩)
    omega
  constructor
  · have hlt := symbolCount_lt bytes
    have hle := length_symbolLens_le bytes
    rw [← h, length_cut, maxSymbols]
    omega
  · exact fun sym hsym => (hmem sym hsym).1
  · exact fun sym hsym => (hmem sym hsym).2

def Table.read (bytes : Bytes) : Except ZuError Table :=
  if bytes.length < 5 then .error (corrupt "truncated header")
  else
    match h : readSymbols bytes with
    | .error e => .error e
    | .ok found => .ok ⟨found.1, readSymbols_symbols h⟩

theorem toNat_count (t : Table) : (UInt8.ofNat t.syms.length).toNat = t.syms.length := by
  have hcount := t.symbols.count_le
  rw [maxSymbols] at hcount
  rw [UInt8.toNat_ofNat', Nat.mod_eq_of_lt (by omega)]

theorem toNat_len (t : Table) {sym : Bytes} (h : sym ∈ t.syms) :
    (UInt8.ofNat sym.length).toNat = sym.length := by
  have hlen := t.symbols.len_le sym h
  rw [maxSymbolLen] at hlen
  rw [UInt8.toNat_ofNat', Nat.mod_eq_of_lt (by omega)]

section

variable (t : Table) {raw : Bytes} (hraw : raw.length = 4) (payload : Bytes)

include hraw

theorem drop_header : (raw ++ (t.header ++ payload)).drop 4 = UInt8.ofNat t.syms.length ::
    (t.syms.map (fun sym => UInt8.ofNat sym.length) ++ (t.syms.flatten ++ payload)) := by
  rw [← hraw, List.drop_left, Table.header, List.cons_append, List.append_assoc]

theorem symbolCount_header : symbolCount (raw ++ (t.header ++ payload)) = t.syms.length := by
  rw [symbolCount, drop_header t hraw, List.headD_cons, toNat_count]

theorem drop_count : (raw ++ (t.header ++ payload)).drop 5 =
    t.syms.map (fun sym => UInt8.ofNat sym.length) ++ (t.syms.flatten ++ payload) := by
  rw [show 5 = 4 + 1 from rfl, ← List.drop_drop, drop_header t hraw, List.drop_one,
    List.tail_cons]

theorem symbolLens_header :
    symbolLens (raw ++ (t.header ++ payload)) = t.syms.map List.length := by
  have hlens : (t.syms.map fun sym => UInt8.ofNat sym.length).length = t.syms.length :=
    List.length_map _
  rw [symbolLens, symbolCount_header t hraw, drop_count t hraw, ← hlens, List.take_left,
    List.map_map]
  apply List.map_congr_left
  exact fun sym hsym => toNat_len t hsym

theorem drop_lens : (raw ++ (t.header ++ payload)).drop (5 + t.syms.length) =
    t.syms.flatten ++ payload := by
  have hlens : (t.syms.map fun sym => UInt8.ofNat sym.length).length = t.syms.length :=
    List.length_map _
  rw [← List.drop_drop, drop_count t hraw, ← hlens, List.drop_left]

theorem readSymbols_header :
    readSymbols (raw ++ (t.header ++ payload)) = .ok (t.syms, payload) := by
  have hsum : (t.syms.map List.length).sum = t.syms.flatten.length := by
    rw [List.length_flatten]
  have hpayload : (raw ++ (t.header ++ payload)).drop (5 + t.syms.length +
      (t.syms.map List.length).sum) = payload := by
    rw [← List.drop_drop, drop_lens t hraw, hsum, List.drop_left]
  have htotal : (raw ++ (t.header ++ payload)).length =
      5 + t.syms.length + t.syms.flatten.length + payload.length := by
    rw [Table.header, List.length_append, List.cons_append, List.length_cons,
      List.length_append, List.length_append, List.length_map, hraw]
    omega
  have hgood : ¬ (t.syms.map List.length).any (fun l => l = 0 ∨ maxSymbolLen < l) = true := by
    intro hany
    obtain ⟨l, hl, hbad⟩ := List.any_eq_true.1 hany
    obtain ⟨sym, hsym, rfl⟩ := List.mem_map.1 hl
    have hpos := t.symbols.len_pos sym hsym
    have hlen := t.symbols.len_le sym hsym
    have hbad' := of_decide_eq_true hbad
    omega
  rw [readSymbols, symbolCount_header t hraw, symbolLens_header t hraw, drop_lens t hraw,
    hpayload, htotal, if_neg (by omega), if_neg hgood, hsum, if_neg (by omega), cut_flatten]

end

theorem Table.read_encode (t : Table) (bytes : Bytes) : Table.read (t.encode bytes) = .ok t := by
  have hfound := readSymbols_header t (length_leBytes 4 bytes.length)
    (encodeFrom t.index bytes bytes.length 0)
  have hlong : ¬ (t.encode bytes).length < 5 := by
    rw [Table.encode, List.length_append, length_leBytes, List.length_append, Table.header,
      List.length_cons]
    omega
  rw [Table.read, if_neg hlong]
  split
  · rename_i e herror
    rw [Table.encode, hfound] at herror
    cases herror
  · rename_i found hok
    have hsame := hok
    rw [Table.encode, hfound] at hsame
    cases hsame
    rfl

/-! ### Decoding -/

theorem length_pad {sym : Bytes} (h : sym.length ≤ maxSymbolLen) :
    (pad sym).length = maxSymbolLen := by
  rw [pad, List.length_append, length_zeros, Nat.add_sub_cancel' h]

theorem length_store {dst w : Bytes} {n : ℕ} (h : n + w.length ≤ dst.length) :
    (store dst n w).length = dst.length := by
  rw [store, List.length_append, List.length_append, List.length_take, List.length_drop]
  omega

/-- What is written up to the end of a symbol is what was there, and the symbol. -/
theorem take_store {dst w : Bytes} {n k : ℕ} (h : n + w.length ≤ dst.length)
    (hk : k ≤ w.length) : (store dst n w).take (n + k) = dst.take n ++ w.take k := by
  have hlen : (dst.take n).length = n := by
    rw [List.length_take, min_eq_left (by omega)]
  rw [store, List.take_append, hlen, Nat.add_sub_cancel_left, List.take_take,
    min_eq_right (by omega), List.take_append_of_le_length hk]

theorem expand_symbol {syms : List Bytes} {code : UInt8} (h : code.toNat < syms.length)
    (payload dst : Bytes) (n : ℕ) : expand syms (code :: payload) dst n =
      if dst.length < n + maxSymbolLen then .error (corrupt "decoded past the claimed length")
      else
        expand syms payload (store dst n (pad (syms.getD code.toNat [])))
          (n + (syms.getD code.toNat []).length) := by
  rw [expand.eq_def]
  simp only [if_pos h]

theorem expand_literal {syms : List Bytes} (h : ¬ escape.toNat < syms.length) (literal : UInt8)
    (payload dst : Bytes) (n : ℕ) : expand syms (escape :: literal :: payload) dst n =
      if dst.length ≤ n then .error (corrupt "decoded past the claimed length")
      else expand syms payload (store dst n [literal]) (n + 1) := by
  rw [expand.eq_def]
  simp only [if_neg h, if_true]

theorem length_expand {syms : List Bytes} (hsyms : ∀ sym ∈ syms, sym.length ≤ maxSymbolLen)
    (payload : Bytes) {dst : Bytes} {n : ℕ} {done : Bytes × ℕ}
    (h : expand syms payload dst n = .ok done) : done.1.length = dst.length := by
  have hgetD : ∀ i, (syms.getD i []).length ≤ maxSymbolLen := by
    intro i
    rw [List.getD_eq_getElem?_getD]
    cases hget : syms[i]? with
    | none => exact Nat.zero_le _
    | some sym => exact hsyms sym (List.mem_of_getElem? hget)
  induction payload, dst, n using expand.induct syms with
  | case1 dst n =>
      rw [expand] at h
      cases h
      rfl
  | case2 code payload dst n hcode hfull =>
      rw [expand_symbol hcode, if_pos hfull] at h
      cases h
  | case3 code payload dst n hcode hroom ih =>
      rw [expand_symbol hcode, if_neg hroom] at h
      rw [ih h]
      apply length_store
      rw [length_pad (hgetD _)]
      omega
  | case4 dst n hcode =>
      rw [expand.eq_def] at h
      simp only [if_neg hcode, if_true] at h
      cases h
  | case5 dst n literal payload hfull hcode =>
      rw [expand_literal hcode, if_pos hfull] at h
      cases h
  | case6 dst n literal payload hroom hcode ih =>
      rw [expand_literal hcode, if_neg hroom] at h
      rw [ih h]
      apply length_store
      rw [List.length_singleton]
      omega
  | case7 code payload dst n hcode hescape =>
      rw [expand.eq_def] at h
      simp only [if_neg hcode, if_neg hescape] at h
      cases h

/-- The codes from `pos` on write the rest of the string after what is there. The
induction is on the fuel of the encoder. -/
theorem expand_encodeFrom (t : Table) (bytes : Bytes) (fuel : ℕ) {pos : ℕ} {dst : Bytes}
    (hfuel : bytes.length ≤ pos + fuel) (hpos : pos ≤ bytes.length)
    (hroom : bytes.length + maxSymbolLen ≤ dst.length) (hdst : dst.take pos = bytes.take pos) :
    ∃ dst', expand t.syms (encodeFrom t.index bytes fuel pos) dst pos =
        .ok (dst', bytes.length) ∧ dst'.take bytes.length = bytes := by
  have hstop : pos = bytes.length → ∃ dst', expand t.syms [] dst pos =
      .ok (dst', bytes.length) ∧ dst'.take bytes.length = bytes := by
    rintro rfl
    refine ⟨dst, ?_, ?_⟩
    · rw [expand]
    · rw [hdst, List.take_length]
  induction fuel generalizing pos dst with
  | zero =>
      rw [encodeFrom]
      exact hstop (by omega)
  | succ fuel ih =>
      rw [encodeFrom]
      split_ifs with hlt
      · have hlongest := Index.bestMatch_longest t.symbols hlt
        have hnext : ∀ {k : ℕ} {w : Bytes}, k ≤ w.length → 1 ≤ k → w.length ≤ maxSymbolLen →
            w.take k = (bytes.drop pos).take k → pos + k ≤ bytes.length →
              ∃ dst', expand t.syms (encodeFrom t.index bytes fuel (pos + k)) (store dst pos w)
                (pos + k) = .ok (dst', bytes.length) ∧ dst'.take bytes.length = bytes := by
          intro k w hk hone hw hsame hin
          have hfits : pos + w.length ≤ dst.length := by omega
          have hdst' : (store dst pos w).take (pos + k) = bytes.take (pos + k) := by
            rw [take_store hfits hk, hdst, hsame, List.take_add]
          apply ih
          · omega
          · exact hin
          · rw [length_store hfits]
            exact hroom
          · exact hdst'
          · intro hend
            refine ⟨store dst pos w, ?_, ?_⟩
            · rw [expand, hend]
            · rw [hend, List.take_length] at hdst'
              exact hdst'
        rw [← Table.index] at hlongest
        cases hm : t.index.bestMatch bytes pos with
        | some m =>
            obtain ⟨code, len⟩ := m
            rw [hm] at hlongest
            obtain ⟨sym, hget, hbegins, hlen, -⟩ := hlongest
            simp only [] at hget hlen ⊢
            have hmem := List.mem_of_getElem? hget
            have hcode : code < t.syms.length := (List.getElem?_eq_some_iff.1 hget).1
            have hcount := t.symbols.count_le
            rw [maxSymbols] at hcount
            have hbyte : (UInt8.ofNat code).toNat = code := by
              rw [UInt8.toNat_ofNat', Nat.mod_eq_of_lt (by omega)]
            have hgetD : t.syms.getD code [] = sym := by
              rw [List.getD_eq_getElem?_getD, hget, Option.getD_some]
            have hsym := t.symbols.len_le sym hmem
            have hfits := hbegins.length_le
            rw [List.length_drop] at hfits
            rw [expand_symbol (hbyte.symm ▸ hcode), hbyte, hgetD, if_neg (by omega), hlen]
            apply hnext
            · rw [length_pad hsym, ← hlen]
              exact hsym
            · rw [← hlen]
              exact t.symbols.len_pos sym hmem
            · rw [length_pad hsym]
            · rw [pad, ← hlen, List.take_left]
              exact List.prefix_iff_eq_take.1 hbegins
            · omega
        | none =>
            have hescape : ¬ escape.toNat < t.syms.length := by
              have hcount := t.symbols.count_le
              rw [maxSymbols] at hcount
              change ¬ 255 < t.syms.length
              omega
            simp only []
            rw [expand_literal hescape, if_neg (by omega)]
            apply hnext
            · exact le_rfl
            · exact le_rfl
            · exact Nat.le_add_left 1 7
            · cases hdrop : bytes.drop pos with
              | nil =>
                  rw [List.drop_eq_nil_iff] at hdrop
                  omega
              | cons b rest => rfl
            · omega
      · exact hstop (by omega)

/-- A buffer of a string that its header can tell the length of decodes to the string. -/
theorem decode_encode (t : Table) {bytes : Bytes} (hlen : bytes.length < 2 ^ 32) {maxBytes : ℕ}
    (hmax : bytes.length ≤ maxBytes) : decode (t.encode bytes) maxBytes = .ok bytes := by
  have h4 : (leBytes 4 bytes.length).length = 4 := length_leBytes 4 _
  have hraw : fromLe ((t.encode bytes).take 4) = bytes.length := by
    rw [Table.encode, List.take_append_of_le_length h4.ge, List.take_of_length_le h4.le]
    exact fromLe_leBytes_of_lt hlen
  have hlong : ¬ (t.encode bytes).length < 5 := by
    rw [Table.encode, List.length_append, h4, List.length_append, Table.header,
      List.length_cons]
    omega
  have hfound : readSymbols (t.encode bytes) =
      .ok (t.syms, encodeFrom t.index bytes bytes.length 0) := readSymbols_header t h4 _
  obtain ⟨dst, hexpand, htake⟩ := @expand_encodeFrom t bytes bytes.length 0
    (zeros (bytes.length + maxSymbolLen)) (Nat.le_add_left _ _) (Nat.zero_le _)
    (by rw [length_zeros]) rfl
  rw [decode, if_neg hlong, hraw, if_neg (Nat.not_lt.2 hmax), hfound, ok_bind, hexpand, ok_bind,
    if_neg (not_not.2 rfl), htake]

theorem length_decode {bytes out : Bytes} {maxBytes : ℕ} (h : decode bytes maxBytes = .ok out) :
    out.length = fromLe (bytes.take 4) := by
  rw [decode] at h
  split_ifs at h
  obtain ⟨found, hfound, h⟩ := except_bind_ok.1 h
  obtain ⟨done, hdone, h⟩ := except_bind_ok.1 h
  have hlen := length_expand (readSymbols_symbols hfound).len_le _ hdone
  rw [length_zeros] at hlen
  split_ifs at h
  cases h
  rw [List.length_take, hlen]
  omega

/-! ### What a table does for a string -/

/-- The string comes back, each match is the longest as a scan of all the symbols finds
it, and the table that is read back from the buffer encodes every string to the same
bytes. -/
structure Lossless (t : Table) (bytes : Bytes) : Prop where
  decodes : ∀ maxBytes, bytes.length ≤ maxBytes → decode (t.encode bytes) maxBytes = .ok bytes
  longest : ∀ pos < bytes.length,
    Index.Longest t.syms (bytes.drop pos) (t.index.bestMatch bytes pos) ∧
      (t.index.bestMatch bytes pos).map Prod.snd = Index.scanAll t.syms (bytes.drop pos)
  reads_back : ∃ t', Table.read (t.encode bytes) = .ok t' ∧ ∀ s, t'.encode s = t.encode s

theorem lt_of_decodes {t : Table} {bytes : Bytes} {maxBytes : ℕ}
    (h : decode (t.encode bytes) maxBytes = .ok bytes) : bytes.length < 2 ^ 32 := by
  have hlen := length_decode h
  have hlt := fromLe_lt ((t.encode bytes).take 4)
  have h4 : ((t.encode bytes).take 4).length ≤ 4 := List.length_take_le _ _
  have hpow : 256 ^ ((t.encode bytes).take 4).length ≤ 256 ^ 4 :=
    Nat.pow_le_pow_right (by decide) h4
  omega

/-- Every table is lossless for the strings whose length the header can tell, and for no
other. -/
theorem lossless_iff (t : Table) (bytes : Bytes) : Lossless t bytes ↔ bytes.length < 2 ^ 32 := by
  constructor
  · exact fun h => lt_of_decodes (h.decodes _ le_rfl)
  · intro hlen
    constructor
    · exact fun maxBytes hmax => decode_encode t hlen hmax
    · intro pos hpos
      have hlongest := Index.bestMatch_longest t.symbols hpos
      exact ⟨hlongest, hlongest.scan_eq⟩
    · exact ⟨t, t.read_encode bytes, fun _ => rfl⟩

/-- A string of `2 ^ 32` bytes does not come back. -/
theorem overlong_not_lossless : ¬ Lossless (Table.train []) (zeros (2 ^ 32)) := by
  intro h
  have hlt := lt_of_decodes (h.decodes _ le_rfl)
  rw [length_zeros] at hlt
  exact lt_irrefl _ hlt

end Fsst

end Zu.Encoding
