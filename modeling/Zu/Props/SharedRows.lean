import Zu.Lib.Counted
import Zu.Props.RowPatch

/-!
# Appended rows under shared pointers

A row patch holds its chunks, its indexes and the chunk being filled behind counted
pointers, and a copy of it for a reader copies the pointers. A write copies what a
reader is still looking at and nothing else, so the patch goes on as its rows do and a
copy stays at the rows it was made of.
-/

namespace Zu.Props

open Lib Txn

/-- What the pointers of a row patch point at: rows, an index of them, and a list of
pointers. -/
inductive RowObj
  | rows (rows : List (List Cell))
  | index (index : List (UInt64 × ℕ))
  | table (table : List ℕ)

namespace RowObj

def links : RowObj → List ℕ
  | .table t => t
  | _ => []

def onRows (f : List (List Cell) → List (List Cell)) : RowObj → RowObj
  | .rows r => .rows (f r)
  | o => o

def onTable (f : List ℕ → List ℕ) : RowObj → RowObj
  | .table t => .table (f t)
  | o => o

end RowObj

open RowObj (links onRows onTable)

def rowsAt (h : List RowObj) (a : ℕ) : List (List Cell) :=
  match h[a]? with
  | some (.rows rows) => rows
  | _ => []

def indexAt (h : List RowObj) (a : ℕ) : List (UInt64 × ℕ) :=
  match h[a]? with
  | some (.index index) => index
  | _ => []

/-- `RowPatch` with its pointers. -/
structure RowHold where
  base : ℕ
  chunks : ℕ
  tail : ℕ
  key : Option ℕ
  keyed : ℕ
  len : ℕ := 0
  bytes : ℕ := 0

namespace RowHold

def roots (p : RowHold) : List ℕ := [p.tail, p.chunks, p.keyed]

def read (h : List RowObj) (p : RowHold) : RowPatch where
  base := p.base
  chunks := (linksAt links h p.chunks).map (rowsAt h)
  tail := rowsAt h p.tail
  key := p.key
  keyed := (linksAt links h p.keyed).map (indexAt h)
  len := p.len
  bytes := p.bytes

/-- Puts the index of a sealed chunk beside the others, where there is a key column:
`roots` are the pointers held besides. -/
def pushKeyed (h : List RowObj) (roots : List ℕ) (key : Option ℕ) (keyed first : ℕ)
    (full : List (List Cell)) : List RowObj × ℕ :=
  match key with
  | some col =>
      makeMut links (h ++ [RowObj.index (indexOf col first full)]) (keyed :: h.length :: roots)
        keyed (onTable (· ++ [h.length]))
  | none => (h, keyed)

/-- `push`, where `others` are the pointers the copies hold. -/
def push (h : List RowObj) (others : List ℕ) (p : RowHold) (cells : List Cell) :
    List RowObj × RowHold :=
  let p := { p with bytes := p.bytes + rowBytes cells, len := p.len + 1 }
  let made := makeMut links h (p.tail :: p.chunks :: p.keyed :: others) p.tail
    (onRows (· ++ [cells]))
  let full := rowsAt made.1 made.2
  if full.length = patchChunk then
    -- the new chunk takes the field, and the full one is held by the call alone
    let h := made.1 ++ [RowObj.rows []]
    let tail := made.1.length
    let keyed := pushKeyed h (tail :: made.2 :: p.chunks :: others) p.key p.keyed
      (p.base + (linksAt links h p.chunks).length * patchChunk) full
    let chunks := makeMut links keyed.1 (p.chunks :: keyed.2 :: tail :: made.2 :: others) p.chunks
      (onTable (· ++ [made.2]))
    (chunks.1, { p with tail, keyed := keyed.2, chunks := chunks.2 })
  else (made.1, { p with tail := made.2 })

/-- `row_at_mut` and the write into the row. -/
def modifyRow (h : List RowObj) (others : List ℕ) (p : RowHold) (i : ℕ)
    (f : List Cell → List Cell) : List RowObj × RowHold :=
  let sealedRows := (linksAt links h p.chunks).length * patchChunk
  if sealedRows ≤ i then
    let made := makeMut links h (p.tail :: p.chunks :: p.keyed :: others) p.tail
      (onRows fun rows => rows.modify (i - sealedRows) f)
    (made.1, { p with tail := made.2 })
  else
    let made := makeMut links h (p.chunks :: p.tail :: p.keyed :: others) p.chunks id
    match (linksAt links made.1 made.2)[i / patchChunk]? with
    | some chunk =>
        let put := makeMut links made.1 (made.2 :: p.tail :: p.keyed :: others) chunk
          (onRows fun rows => rows.modify (i % patchChunk) f)
        (put.1.modify made.2 (onTable fun table => table.set (i / patchChunk) put.2),
          { p with chunks := made.2 })
    | none => (made.1, { p with chunks := made.2 })

def set (h : List RowObj) (others : List ℕ) (p : RowHold) (col row : ℕ) (value : Cell) :
    List RowObj × RowHold :=
  if (p.read h).settable col row then
    let was := (((p.read h).get col row).map strBytes).getD 0
    let wrote := p.modifyRow h others (row - p.base) fun cells => cells.set col value
    (wrote.1, { wrote.2 with bytes := wrote.2.bytes - was + strBytes value })
  else (h, p)

def apply (h : List RowObj) (others : List ℕ) (p : RowHold) : RowWrite → List RowObj × RowHold
  | .push cells => p.push h others cells
  | .set col row value => p.set h others col row value

end RowHold

/-- The pointer points at a list of pointers to the values. -/
def TableOf {β : Type} (obj : β → RowObj) (h : List RowObj) (a : ℕ) (values : List β) : Prop :=
  ∃ table, h[a]? = some (.table table) ∧
    table.map (fun b => h[b]?) = values.map fun v => some (obj v)

section

variable {β : Type} {obj : β → RowObj} {h h' : List RowObj} {roots : List ℕ} {a : ℕ}
  {values : List β}

theorem linksAt_table {table : List ℕ} (ha : h[a]? = some (.table table)) :
    linksAt links h a = table := by
  rw [linksAt, ha]
  rfl

theorem TableOf.congr (htable : TableOf obj h a values) (hkept : Kept links h h' roots)
    (ha : a ∈ roots) : TableOf obj h' a values := by
  obtain ⟨table, hat, hvalues⟩ := htable
  refine ⟨table, by rw [hkept.root links ha, hat], ?_⟩
  rw [← hvalues]
  apply List.map_congr_left
  intro b hb
  apply hkept.kept
  rw [mem_pointers]
  exact Or.inr ⟨a, ha, (linksAt_table hat).symm ▸ hb⟩

theorem TableOf.bound (htable : TableOf obj h a values) : ∀ b ∈ linksAt links h a, b < h.length := by
  obtain ⟨table, hat, hvalues⟩ := htable
  intro b hb
  rw [linksAt_table hat] at hb
  have hmem : h[b]? ∈ table.map fun b => h[b]? := List.mem_map.2 ⟨b, hb, rfl⟩
  rw [hvalues] at hmem
  obtain ⟨v, -, hv⟩ := List.mem_map.1 hmem
  exact (List.getElem?_eq_some_iff.1 hv.symm).1

theorem TableOf.push (htable : TableOf obj h a values) (hclosed : Closed links h (a :: roots))
    {n : ℕ} (hn : n ∈ roots) {v : β} (hv : h[n]? = some (obj v)) :
    TableOf obj (makeMut links h (a :: roots) a (onTable (· ++ [n]))).1
      (makeMut links h (a :: roots) a (onTable (· ++ [n]))).2 (values ++ [v]) := by
  obtain ⟨table, hat, hvalues⟩ := htable
  have hroots := closed_mono links (List.subset_cons_self a roots) hclosed
  have halone := alone_makeMut links hroots hat (onTable (· ++ [n]))
  refine ⟨table ++ [n], halone.here, ?_⟩
  rw [List.map_append, List.map_append, List.map_singleton, List.map_singleton,
    halone.root links hn, hv, ← hvalues]
  congr 1
  apply List.map_congr_left
  intro b hb
  exact makeMut_links links hclosed _ ((linksAt_table hat).symm ▸ hb)

theorem TableOf.map_eq (htable : TableOf obj h a values) {read : ℕ → β}
    (hread : ∀ b v, h[b]? = some (obj v) → read b = v) :
    (linksAt links h a).map read = values := by
  obtain ⟨table, hat, hvalues⟩ := htable
  rw [linksAt_table hat]
  apply List.ext_getElem?
  intro j
  have hj : (table.map fun b => h[b]?)[j]? = (values.map fun v => some (obj v))[j]? := by
    rw [hvalues]
  rw [List.getElem?_map, List.getElem?_map] at hj
  rw [List.getElem?_map]
  cases hb : table[j]? with
  | none =>
      rw [hb, Option.map_none] at hj
      rw [Option.map_none, Option.map_eq_none_iff.1 hj.symm]
  | some b =>
      rw [hb, Option.map_some] at hj
      obtain ⟨v, hv, heq⟩ := Option.map_eq_some_iff.1 hj.symm
      rw [Option.map_some, hv, hread b v heq.symm]

/-- The rows behind a pointer of a list that only this patch reaches, written into. -/
theorem TableOf.modify {others : List ℕ} {values : List (List (List Cell))}
    (htable : TableOf RowObj.rows h a values) (hclosed : Closed links h (a :: others))
    (hapart : a ∉ pointers links h others) {i c : ℕ} (hc : (linksAt links h a)[i]? = some c)
    (f : List (List Cell) → List (List Cell)) :
    let put := makeMut links h (a :: others) c (onRows f)
    let h' := put.1.modify a (onTable fun table => table.set i put.2)
    TableOf RowObj.rows h' a (values.modify i f) ∧ Kept links h h' others := by
  obtain ⟨table, hat, hvalues⟩ := htable
  rw [linksAt_table hat] at hc
  have hci : (table.map fun b => h[b]?)[i]? = some h[c]? := by
    rw [List.getElem?_map, hc]
    rfl
  rw [hvalues, List.getElem?_map] at hci
  obtain ⟨rows, hrows, hcrows⟩ := Option.map_eq_some_iff.1 hci
  have hnotother : a ∉ others := fun hmem => hapart ((mem_pointers links).2 (Or.inl hmem))
  obtain ⟨halone, hown, hrest⟩ := alone_makeMut_link links hclosed hnotother
    ((linksAt_table hat).symm ▸ hc) hcrows.symm (onRows f)
  intro put h'
  have hh' : h' = put.1.modify a (onTable fun table => table.set i put.2) := rfl
  have hput : put.1[put.2]? = some (.rows (f rows)) := halone.here
  have hne : a ≠ put.2 := by
    intro heq
    have hsame : put.1[put.2]? = some (.table table) := by
      rw [← heq]
      exact hown.trans hat
    exact nomatch hput.symm.trans hsame
  constructor
  · refine ⟨table.set i put.2, ?_, ?_⟩
    · rw [hh', List.getElem?_modify_eq, hown, hat]
      rfl
    · apply List.ext_getElem?
      intro j
      rw [List.getElem?_map, List.getElem?_map, List.getElem?_set, List.getElem?_modify]
      have hj : (table.map fun b => h[b]?)[j]? = (values.map fun v => some (RowObj.rows v))[j]? := by
        rw [hvalues]
      rw [List.getElem?_map, List.getElem?_map] at hj
      by_cases hij : i = j
      · subst hij
        have hlt : i < table.length := (List.getElem?_eq_some_iff.1 hc).1
        rw [if_pos rfl, if_pos hlt, hrows, Option.map_some, hh', List.getElem?_modify_ne _ _ hne,
          hput]
        simp
      · rw [if_neg hij]
        simp only [if_neg hij, Option.map_eq_map, Option.map_id']
        rw [← hj]
        cases hb : table[j]? with
        | none => rfl
        | some b =>
            have hkeep : put.1[b]? = h[b]? := hrest j b (Ne.symm hij) ((linksAt_table hat).symm ▸ hb)
            have hab : a ≠ b := by
              rintro rfl
              rw [hb, Option.map_some, hat] at hj
              obtain ⟨v, -, hv⟩ := Option.map_eq_some_iff.1 hj.symm
              exact nomatch Option.some.inj hv
            rw [Option.map_some, Option.map_some, hh', List.getElem?_modify_ne _ _ hab, hkeep]
  · have hapart' : a ∉ pointers links put.1 others := fun hmem =>
      hapart ((mem_pointers_congr links halone.kept a).1 hmem)
    have hat' : put.1[a]? = some (.table table) := hown.trans hat
    exact halone.toKept.trans links (alone_modify links hapart' hat' _).toKept

end

/-- The patch reads through its pointers as `v`. -/
structure RowHold.Points (h : List RowObj) (p : RowHold) (v : RowPatch) : Prop where
  base : p.base = v.base
  key : p.key = v.key
  len : p.len = v.len
  bytes : p.bytes = v.bytes
  tail : h[p.tail]? = some (.rows v.tail)
  chunks : TableOf RowObj.rows h p.chunks v.chunks
  keyed : TableOf RowObj.index h p.keyed v.keyed

namespace RowHold

variable {h h' : List RowObj} {others : List ℕ} {p : RowHold} {v : RowPatch}

theorem Points.congr (hpoints : p.Points h v) (hkept : Kept links h h' p.roots) : p.Points h' v where
  base := hpoints.base
  key := hpoints.key
  len := hpoints.len
  bytes := hpoints.bytes
  tail := by rw [hkept.root links (by simp [roots]), hpoints.tail]
  chunks := hpoints.chunks.congr hkept (by simp [roots])
  keyed := hpoints.keyed.congr hkept (by simp [roots])

theorem Points.read (hpoints : p.Points h v) : p.read h = v := by
  have hc : (linksAt links h p.chunks).map (rowsAt h) = v.chunks :=
    hpoints.chunks.map_eq fun b rows hb => by rw [rowsAt, hb]
  have hk : (linksAt links h p.keyed).map (indexAt h) = v.keyed :=
    hpoints.keyed.map_eq fun b index hb => by rw [indexAt, hb]
  have ht : rowsAt h p.tail = v.tail := by rw [rowsAt, hpoints.tail]
  rw [RowHold.read, hc, hk, ht, hpoints.base, hpoints.key, hpoints.len, hpoints.bytes]

end RowHold

section

variable {β : Type} {obj : β → RowObj} {h : List RowObj} {roots : List ℕ} {a : ℕ} {values : List β}

theorem closed_cons (hclosed : Closed links h roots) (ha : a < h.length)
    (hlinks : ∀ b ∈ linksAt links h a, b < h.length) : Closed links h (a :: roots) := by
  intro b hb
  rcases (mem_pointers links).1 hb with hroot | ⟨r, hr, hbr⟩
  · cases List.mem_cons.1 hroot with
    | inl heq => exact heq ▸ ha
    | inr hold => exact hclosed b ((mem_pointers links).2 (Or.inl hold))
  · cases List.mem_cons.1 hr with
    | inl heq => exact hlinks b (heq ▸ hbr)
    | inr hold => exact hclosed b ((mem_pointers links).2 (Or.inr ⟨r, hold, hbr⟩))

theorem TableOf.closed (htable : TableOf obj h a values) (hclosed : Closed links h roots) :
    Closed links h (a :: roots) := by
  apply closed_cons hclosed
  · obtain ⟨table, hat, -⟩ := htable
    exact (List.getElem?_eq_some_iff.1 hat).1
  · exact htable.bound

theorem closed_rows {rows : List (List Cell)} (hrows : h[a]? = some (.rows rows))
    (hclosed : Closed links h roots) : Closed links h (a :: roots) := by
  apply closed_cons hclosed
  · exact (List.getElem?_eq_some_iff.1 hrows).1
  · intro b hb
    rw [linksAt, hrows] at hb
    exact absurd hb List.not_mem_nil

theorem TableOf.length (htable : TableOf obj h a values) :
    (linksAt links h a).length = values.length := by
  obtain ⟨table, hat, hvalues⟩ := htable
  have hlen := congrArg List.length hvalues
  rw [List.length_map, List.length_map] at hlen
  rw [linksAt_table hat, hlen]

/-- A pointer to something new put at the end of a list of them. -/
theorem TableOf.push_new (htable : TableOf obj h a values) (hclosed : Closed links h roots) {v : β}
    (hv : links (obj v) = []) :
    let made := makeMut links (h ++ [obj v]) (a :: h.length :: roots) a (onTable (· ++ [h.length]))
    TableOf obj made.1 made.2 (values ++ [v]) ∧ Kept links h made.1 roots := by
  have hnew := alone_alloc links (htable.closed hclosed) (obj v)
  have hroots := hnew.toKept.mono links (List.subset_cons_self a roots)
  have htable' := htable.congr hnew.toKept List.mem_cons_self
  have hclosed' : Closed links (h ++ [obj v]) (h.length :: roots) := by
    apply closed_cons (hroots.closed links hclosed)
    · exact (List.getElem?_eq_some_iff.1 hnew.here).1
    · intro b hb
      rw [linksAt, hnew.here, Option.map_some, Option.getD_some, hv] at hb
      exact absurd hb List.not_mem_nil
  have htable'' := htable'
  obtain ⟨table, hat, -⟩ := htable''
  have hmade := alone_makeMut links hclosed' hat (onTable (· ++ [h.length]))
  constructor
  · exact htable'.push (htable'.closed hclosed') List.mem_cons_self hnew.here
  · exact hroots.trans links (hmade.toKept.mono links (List.subset_cons_self _ roots))

end

namespace RowHold

variable {h : List RowObj} {others : List ℕ} {p : RowHold} {v : RowPatch}

theorem Points.closed (hpoints : p.Points h v) (hclosed : Closed links h others) :
    Closed links h (p.roots ++ others) :=
  closed_rows hpoints.tail (hpoints.chunks.closed (hpoints.keyed.closed hclosed))

/-- After a call: what the patch reads as, and that the copies read as they did. -/
structure Becomes (h : List RowObj) (others : List ℕ) (next : List RowObj × RowHold)
    (v : RowPatch) : Prop where
  points : next.2.Points next.1 v
  kept : Kept links h next.1 others

theorem pushKeyed_becomes (first : ℕ) (key : Option ℕ) (full : List (List Cell)) {roots : List ℕ}
    {keyed : ℕ} {indexes : List (List (UInt64 × ℕ))}
    (hkeyed : TableOf RowObj.index h keyed indexes) (hclosed : Closed links h roots) :
    let made := pushKeyed h roots key keyed first full
    TableOf RowObj.index made.1 made.2
        (match key with
          | some col => indexes ++ [indexOf col first full]
          | none => indexes) ∧
      Kept links h made.1 roots := by
  cases key with
  | none =>
      constructor
      · exact hkeyed
      · exact Kept.refl links h roots
  | some col => exact hkeyed.push_new hclosed rfl

theorem push_becomes (hpoints : p.Points h v) (hclosed : Closed links h others) (cells : List Cell) :
    Becomes h others (p.push h others cells) (v.push cells) := by
  have hrest : Closed links h (p.chunks :: p.keyed :: others) :=
    hpoints.chunks.closed (hpoints.keyed.closed hclosed)
  have hmade := alone_makeMut links hrest hpoints.tail (onRows (· ++ [cells]))
  rw [push, RowPatch.push]
  simp only []
  generalize makeMut links h (p.tail :: p.chunks :: p.keyed :: others) p.tail
    (onRows (· ++ [cells])) = made at hmade ⊢
  have hfull : rowsAt made.1 made.2 = v.tail ++ [cells] := by
    rw [rowsAt, hmade.here]
    rfl
  have hchunks := hpoints.chunks.congr hmade.toKept (by simp)
  have hkeyed := hpoints.keyed.congr hmade.toKept (by simp)
  rw [hfull]
  split
  case isFalse =>
    exact
      { points :=
          { base := hpoints.base
            key := hpoints.key
            len := congrArg (· + 1) hpoints.len
            bytes := congrArg (· + rowBytes cells) hpoints.bytes
            tail := hmade.here
            chunks := hchunks
            keyed := hkeyed }
        kept := hmade.toKept.mono links (by grind) }
  case isTrue =>
    have hclosed1 : Closed links made.1 (made.2 :: p.chunks :: p.keyed :: others) :=
      hmade.closed links hrest fun b hb => absurd hb List.not_mem_nil
    have hnew := alone_alloc links hclosed1 (RowObj.rows [])
    have hclosed2 := hnew.closed links hclosed1 fun b hb => absurd hb List.not_mem_nil
    have hchunks2 := hchunks.congr hnew.toKept (by simp)
    have hkeyed2 := hkeyed.congr hnew.toKept (by simp)
    have hfull2 := hnew.root links (a := made.2) (by simp)
    rw [hmade.here] at hfull2
    have hindexed := pushKeyed_becomes (p.base + v.chunks.length * patchChunk) p.key
      (v.tail ++ [cells]) hkeyed2 (closed_mono links
        (show made.1.length :: made.2 :: p.chunks :: others ⊆
          made.1.length :: made.2 :: p.chunks :: p.keyed :: others by grind) hclosed2)
    rw [hchunks2.length]
    generalize pushKeyed (made.1 ++ [RowObj.rows []])
      (made.1.length :: made.2 :: p.chunks :: others) p.key p.keyed
      (p.base + v.chunks.length * patchChunk) (v.tail ++ [cells]) = keyed at hindexed ⊢
    obtain ⟨hkeyed3, hkept3⟩ := hindexed
    have hchunks3 := hchunks2.congr hkept3 (by simp)
    have hfull3 := hkept3.root links (a := made.2) (by simp)
    have hnew3 := hkept3.root links (a := made.1.length) (by simp)
    rw [hfull2] at hfull3
    rw [hnew.here] at hnew3
    have hclosed3 : Closed links keyed.1 (keyed.2 :: made.1.length :: made.2 :: others) :=
      hkeyed3.closed ((hkept3.mono links (by grind)).closed links
        (closed_mono links (by grind) hclosed2))
    have hchunk := hchunks3
    obtain ⟨table, hat, -⟩ := hchunk
    have hput := alone_makeMut links hclosed3 hat (onTable (· ++ [made.2]))
    have hchunks4 := hchunks3.push (hchunks3.closed hclosed3) (n := made.2) (by simp) hfull3
    exact
      { points :=
          { base := hpoints.base
            key := hpoints.key
            len := congrArg (· + 1) hpoints.len
            bytes := congrArg (· + rowBytes cells) hpoints.bytes
            tail := by rw [hput.root links (by simp), hnew3]
            chunks := hchunks4
            keyed := by
              rw [← hpoints.key, ← hpoints.base]
              exact hkeyed3.congr hput.toKept (by simp) }
        kept := by
          have h1 : Kept links h made.1 others := hmade.toKept.mono links (by grind)
          have h2 : Kept links made.1 _ others := hnew.toKept.mono links (by grind)
          have h3 : Kept links _ keyed.1 others := hkept3.mono links (by grind)
          have h4 : Kept links keyed.1 _ others := hput.toKept.mono links (by grind)
          exact ((h1.trans links h2).trans links h3).trans links h4 }

end RowHold

namespace RowHold

variable {h : List RowObj} {others : List ℕ} {p : RowHold} {v : RowPatch}

theorem modifyRow_becomes (hpoints : p.Points h v) (hclosed : Closed links h others) (i : ℕ)
    (f : List Cell → List Cell) :
    Becomes h others (p.modifyRow h others i f) (v.modifyRow i f) := by
  rw [modifyRow, RowPatch.modifyRow, hpoints.chunks.length]
  split
  case isTrue =>
    have hrest : Closed links h (p.chunks :: p.keyed :: others) :=
      hpoints.chunks.closed (hpoints.keyed.closed hclosed)
    have hmade := alone_makeMut links hrest hpoints.tail
      (onRows fun rows => rows.modify (i - v.chunks.length * patchChunk) f)
    exact
      { points :=
          { base := hpoints.base
            key := hpoints.key
            len := hpoints.len
            bytes := hpoints.bytes
            tail := hmade.here
            chunks := hpoints.chunks.congr hmade.toKept (by simp)
            keyed := hpoints.keyed.congr hmade.toKept (by simp) }
        kept := hmade.toKept.mono links (by grind) }
  case isFalse =>
    have hrest : Closed links h (p.tail :: p.keyed :: others) :=
      closed_rows hpoints.tail (hpoints.keyed.closed hclosed)
    obtain ⟨table, hat, hvalues⟩ := hpoints.chunks
    have hmade := alone_makeMut links hrest hat id
    have htable : TableOf RowObj.rows
        (makeMut links h (p.chunks :: p.tail :: p.keyed :: others) p.chunks id).1
        (makeMut links h (p.chunks :: p.tail :: p.keyed :: others) p.chunks id).2 v.chunks := by
      refine ⟨table, hmade.here, ?_⟩
      rw [← hvalues]
      apply List.map_congr_left
      intro b hb
      exact makeMut_links links (hpoints.chunks.closed hrest) _ ((linksAt_table hat).symm ▸ hb)
    generalize makeMut links h (p.chunks :: p.tail :: p.keyed :: others) p.chunks id = made
      at hmade htable ⊢
    have hclosed1 : Closed links made.1 (p.tail :: p.keyed :: others) :=
      hmade.toKept.closed links hrest
    have hapart : made.2 ∉ pointers links made.1 (p.tail :: p.keyed :: others) := fun hmem =>
      hmade.apart ((mem_pointers_congr links hmade.kept made.2).1 hmem)
    simp only []
    split
    case h_1 chunk hchunk =>
      obtain ⟨hput, hkept⟩ := htable.modify (htable.closed hclosed1) hapart hchunk
        fun rows => rows.modify (i % patchChunk) f
      have hall := hmade.toKept.trans links hkept
      exact
        { points :=
            { base := hpoints.base
              key := hpoints.key
              len := hpoints.len
              bytes := hpoints.bytes
              tail := by rw [hall.root links (by simp), hpoints.tail]
              chunks := hput
              keyed := hpoints.keyed.congr hall (by simp) }
          kept := hall.mono links (by grind) }
    case h_2 hnone =>
      rw [List.getElem?_eq_none_iff, htable.length] at hnone
      rw [List.modify_eq_self hnone]
      exact
        { points :=
            { base := hpoints.base
              key := hpoints.key
              len := hpoints.len
              bytes := hpoints.bytes
              tail := by rw [hmade.root links (by simp), hpoints.tail]
              chunks := htable
              keyed := hpoints.keyed.congr hmade.toKept (by simp) }
          kept := hmade.toKept.mono links (by grind) }

theorem set_becomes (hpoints : p.Points h v) (hclosed : Closed links h others) (col row : ℕ)
    (value : Cell) :
    Becomes h others (p.set h others col row value) (v.set col row value).1 := by
  have hwrote := modifyRow_becomes hpoints hclosed (row - v.base) fun cells => cells.set col value
  rw [set, RowPatch.set, hpoints.read]
  split
  case isFalse =>
    exact
      { points := hpoints
        kept := Kept.refl links h others }
  case isTrue =>
    rw [hpoints.base]
    exact
      { points :=
          { base := hwrote.points.base
            key := hwrote.points.key
            len := hwrote.points.len
            bytes := by
              simp only [hwrote.points.bytes]
            tail := hwrote.points.tail
            chunks := hwrote.points.chunks
            keyed := hwrote.points.keyed }
        kept := hwrote.kept }

theorem apply_becomes (hpoints : p.Points h v) (hclosed : Closed links h others) (call : RowWrite) :
    Becomes h others (p.apply h others call) (call.apply v) := by
  cases call with
  | push cells => exact push_becomes hpoints hclosed cells
  | set col row value => exact set_becomes hpoints hclosed col row value

end RowHold

/-- A row patch and the copies of it that readers hold. -/
structure RowWorld where
  heap : List RowObj
  patch : RowHold
  readers : List RowHold := []

namespace RowWorld

def new (base : ℕ) (key : Option ℕ) : RowWorld where
  heap := [.table [], .rows [], .table []]
  patch := { base, chunks := 0, tail := 1, key, keyed := 2 }

def others (w : RowWorld) : List ℕ := w.readers.flatMap RowHold.roots

def step (w : RowWorld) : Event RowWrite → RowWorld
  | .call write =>
      let next := w.patch.apply w.heap w.others write
      { w with heap := next.1, patch := next.2 }
  | .share => { w with readers := w.patch :: w.readers }
  | .release i => { w with readers := w.readers.eraseIdx i }

end RowWorld

/-- A patch behind pointers that holds the list of rows. -/
def RowHold.Reads (h : List RowObj) (base : ℕ) (key : Option ℕ) (p : RowHold)
    (rows : List (List Cell)) : Prop := ∃ v, p.Points h v ∧ v.Reads base key rows

structure RowWorld.Sound (w : RowWorld) (base : ℕ) (key : Option ℕ)
    (plain : Copies (List (List Cell))) : Prop where
  patch : w.patch.Reads w.heap base key plain.now
  readers : List.Forall₂ (RowHold.Reads w.heap base key) w.readers plain.readers

namespace RowWorld

variable {w : RowWorld} {base : ℕ} {key : Option ℕ} {plain : Copies (List (List Cell))}

theorem sound_new (base : ℕ) (key : Option ℕ) : (new base key).Sound base key { now := [] } where
  patch :=
    ⟨RowPatch.new base key,
      { base := rfl
        key := rfl
        len := rfl
        bytes := rfl
        tail := rfl
        chunks := ⟨[], rfl, rfl⟩
        keyed := ⟨[], rfl, rfl⟩ }, RowPatch.reads_new base key⟩
  readers := List.Forall₂.nil

theorem closed_flatMap {h : List RowObj} {readers : List RowHold} {rows : List (List (List Cell))}
    (hreaders : List.Forall₂ (RowHold.Reads h base key) readers rows) :
    Closed links h (readers.flatMap RowHold.roots) := by
  induction hreaders with
  | nil => exact fun b hb => absurd hb List.not_mem_nil
  | cons hreads _ ih =>
      obtain ⟨v, hpoints, -⟩ := hreads
      rw [List.flatMap_cons]
      exact hpoints.closed ih

/-- The copies hold what they held where what they reach is as it was. -/
theorem forall₂_kept {h h' : List RowObj} {readers : List RowHold} {rows : List (List (List Cell))}
    (hreaders : List.Forall₂ (RowHold.Reads h base key) readers rows)
    (hkept : Kept links h h' (readers.flatMap RowHold.roots)) :
    List.Forall₂ (RowHold.Reads h' base key) readers rows := by
  induction hreaders with
  | nil => exact List.Forall₂.nil
  | cons hreads _ ih =>
      obtain ⟨v, hpoints, hv⟩ := hreads
      rw [List.flatMap_cons] at hkept
      constructor
      · exact ⟨v, hpoints.congr (hkept.mono links (List.subset_append_left _ _)), hv⟩
      · exact ih (hkept.mono links (List.subset_append_right _ _))

theorem Sound.step (hsound : w.Sound base key plain) (event : Event RowWrite) :
    (w.step event).Sound base key (plain.step (RowWrite.plain base key) event) := by
  obtain ⟨v, hpoints, hreads⟩ := hsound.patch
  cases event with
  | share =>
      exact
        { patch := hsound.patch
          readers := List.Forall₂.cons hsound.patch hsound.readers }
  | release i =>
      exact
        { patch := hsound.patch
          readers := forall₂_eraseIdx hsound.readers i }
  | call write =>
      have hnext := RowHold.apply_becomes hpoints (closed_flatMap hsound.readers) write
      exact
        { patch := ⟨write.apply v, hnext.points, (hreads.apply write).1⟩
          readers := forall₂_kept hsound.readers hnext.kept }

/-- Along any run the patch holds the rows and each copy the rows it was made of. -/
theorem sound_foldl (hsound : w.Sound base key plain) (events : List (Event RowWrite)) :
    (events.foldl RowWorld.step w).Sound base key
      (events.foldl (Copies.step (RowWrite.plain base key)) plain) := by
  induction events generalizing w plain with
  | nil => exact hsound
  | cons event events ih => exact ih (hsound.step event)

end RowWorld

theorem RowHold.Reads.answers {h : List RowObj} {base : ℕ} {key : Option ℕ} {p : RowHold}
    {rows : List (List Cell)} (hreads : p.Reads h base key rows) :
    (p.read h).Answers base key rows := by
  obtain ⟨v, hpoints, hv⟩ := hreads
  rw [hpoints.read]
  exact hv.answers

theorem RowHold.Reads.answer {h : List RowObj} {base : ℕ} {key : Option ℕ} {p : RowHold}
    {rows : List (List Cell)} (hreads : p.Reads h base key rows) (call : RowWrite) :
    call.answer (p.read h) = call.plainAnswer base key rows := by
  obtain ⟨v, hpoints, hv⟩ := hreads
  rw [hpoints.read]
  exact (hv.apply call).2

end Zu.Props
