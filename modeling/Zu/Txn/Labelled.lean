import Zu.Txn.Lowered
import Zu.Schema.Types

/-!
# Label changes

A row's label changes are a chain of masks, put on its end by the transactions as they
commit. A fold is given one pair of masks for a row, which changes a word as every
change of the chain does, in order.
-/

namespace Zu.Txn

open Lib Wal

/-! ### Labels -/

def labelsIn (word : UInt64) : Fin 64 → Bool := fun i => word.toBitVec.getLsbD i

/-- `(word | add) & !remove`. -/
def changeWord (word : UInt64) (masks : UInt64 × UInt64) : UInt64 :=
  (word ||| masks.1) &&& ~~~masks.2

theorem labelsIn_or (a b : UInt64) : labelsIn (a ||| b) = labelsIn a ⊔ labelsIn b := by
  funext i
  rw [labelsIn, UInt64.toBitVec_or, BitVec.getLsbD_or]
  rfl

theorem labelsIn_and (a b : UInt64) : labelsIn (a &&& b) = labelsIn a ⊓ labelsIn b := by
  funext i
  rw [labelsIn, UInt64.toBitVec_and, BitVec.getLsbD_and]
  rfl

theorem labelsIn_andNot (a b : UInt64) : labelsIn (a &&& ~~~b) = labelsIn a \ labelsIn b := by
  funext i
  rw [labelsIn, UInt64.toBitVec_and, UInt64.toBitVec_not, BitVec.getLsbD_and, BitVec.getLsbD_not,
    decide_eq_true i.isLt, Bool.true_and]
  rfl

theorem labelsIn_inj {a b : UInt64} (h : labelsIn a = labelsIn b) : a = b := by
  apply UInt64.toBitVec_inj.1
  apply BitVec.eq_of_getLsbD_eq
  intro i hi
  exact congrFun h ⟨i, hi⟩

theorem labelsIn_zero : labelsIn 0 = ⊥ := by
  funext i
  exact BitVec.getLsbD_zero

/-- A pair of masks and the change of label sets it stands for. -/
structure Stands (masks : UInt64 × UInt64) (c : Masks (Fin 64 → Bool)) : Prop where
  add : labelsIn masks.1 = c.add
  remove : labelsIn masks.2 = c.remove

theorem exists_stands {masks : UInt64 × UInt64} (h : masks.1 &&& masks.2 = 0) :
    ∃ c, Stands masks c := by
  refine ⟨⟨labelsIn masks.1, labelsIn masks.2, ?_⟩, rfl, rfl⟩
  rw [disjoint_iff, ← labelsIn_and, h, labelsIn_zero]

theorem Stands.disjoint {masks : UInt64 × UInt64} {c : Masks (Fin 64 → Bool)}
    (h : Stands masks c) : masks.1 &&& masks.2 = 0 := by
  apply labelsIn_inj
  rw [labelsIn_and, h.add, h.remove, labelsIn_zero]
  exact c.disjoint.eq_bot

theorem Stands.changeWord {masks : UInt64 × UInt64} {c : Masks (Fin 64 → Bool)}
    (h : Stands masks c) (word : UInt64) :
    labelsIn (changeWord word masks) = c.act (labelsIn word) := by
  rw [Txn.changeWord, labelsIn_andNot, labelsIn_or, h.add, h.remove, Masks.act]

theorem Stands.idle : Stands (0, 0) Masks.idle where
  add := labelsIn_zero
  remove := labelsIn_zero

/-- The masks of a row after one more change. -/
def composed (masks later : UInt64 × UInt64) : UInt64 × UInt64 :=
  ((masks.1 &&& ~~~later.2) ||| later.1, (masks.2 &&& ~~~later.1) ||| later.2)

theorem Stands.composed {masks later : UInt64 × UInt64} {c d : Masks (Fin 64 → Bool)}
    (h : Stands masks c) (h' : Stands later d) : Stands (composed masks later) (c.andThen d) where
  add := by rw [Txn.composed, labelsIn_or, labelsIn_andNot, h.add, h'.add, h'.remove, Masks.andThen]
  remove := by
    rw [Txn.composed, labelsIn_or, labelsIn_andNot, h.remove, h'.add, h'.remove, Masks.andThen]

/-- Composing a chain of changes whose masks are disjoint keeps them disjoint, and the
pair it composes to changes a word as the changes do, in order. -/
theorem composed_spec {changes : List (UInt64 × UInt64)}
    (h : ∀ masks ∈ changes, masks.1 &&& masks.2 = 0) {start : UInt64 × UInt64}
    (hstart : start.1 &&& start.2 = 0) :
    (changes.foldl composed start).1 &&& (changes.foldl composed start).2 = 0 ∧
      ∀ word, changeWord word (changes.foldl composed start) =
        changes.foldl changeWord (changeWord word start) := by
  induction changes generalizing start with
  | nil => exact ⟨hstart, fun word => rfl⟩
  | cons masks changes ih =>
      obtain ⟨c, hc⟩ := exists_stands hstart
      obtain ⟨d, hd⟩ := exists_stands (h masks List.mem_cons_self)
      have hboth := hc.composed hd
      have hrest := ih (fun masks' hmem => h masks' (List.mem_cons_of_mem _ hmem)) hboth.disjoint
      refine ⟨hrest.1, fun word => ?_⟩
      rw [List.foldl_cons, List.foldl_cons, hrest.2]
      congr 1
      apply labelsIn_inj
      rw [hboth.changeWord, hd.changeWord, hc.changeWord, Masks.act_andThen]

theorem composeLabels_eq (chain : List (Epoch × UInt64 × UInt64)) :
    Mvcc.composeLabels chain = (chain.map Prod.snd).foldl composed (0, 0) := by
  rw [Mvcc.composeLabels, List.foldl_map]
  rfl

theorem changeWord_zero (word : UInt64) : changeWord word (0, 0) = word := by
  apply labelsIn_inj
  rw [Stands.idle.changeWord, Masks.act_idle]

/-! ### The changes of a row -/

def Op.masksOn (table : UInt32) (row : UInt64) : Op → Option (UInt64 × UInt64)
  | .updateLabels t r add remove => if t = table ∧ r = row then some (add, remove) else none
  | _ => none

/-- What a row's chain of label changes holds. -/
def labelChain (o : Overlays) (table : UInt32) (row : UInt64) : List (Epoch × UInt64 × UInt64) :=
  (o.tables[table]?).elim [] fun t => (t.labels[row]?).getD []

theorem labelChain_table {o : Overlays} {t : UInt32} {f : TableOverlay → TableOverlay}
    {table : UInt32} {row : UInt64} (h : ∀ t, (f t).labels[row]? = t.labels[row]?) :
    labelChain (o.table t f) table row = labelChain o table row := by
  rw [labelChain, labelChain, Overlays.table]
  by_cases ht : t = table
  · subst ht
    rw [getElem?_entry_self, Option.elim_some, h]
    cases o.tables[t]? with
    | none => rfl
    | some t => rfl
  · rw [getElem?_entry_of_ne _ ht]

theorem labelChain_label (o : Overlays) (t : UInt32) (r : UInt64) (epoch : Epoch)
    (add remove : UInt64) (table : UInt32) (row : UInt64) :
    labelChain (o.table t fun t => t.label r epoch add remove) table row =
      labelChain o table row ++
        if t = table ∧ r = row then [(epoch, add, remove)] else [] := by
  by_cases ht : t = table
  · subst ht
    by_cases hr : r = row
    · subst hr
      rw [if_pos ⟨rfl, rfl⟩, labelChain, labelChain, Overlays.table, getElem?_entry_self,
        Option.elim_some, TableOverlay.label, getElem?_entry_self, Option.getD_some]
      cases o.tables[t]? with
      | none => rfl
      | some t => rfl
    · rw [if_neg fun h => hr h.2, List.append_nil]
      apply labelChain_table
      intro t
      exact getElem?_entry_of_ne _ hr _ _
  · rw [if_neg fun h => ht h.1, List.append_nil, labelChain, labelChain, Overlays.table,
      getElem?_entry_of_ne _ ht]

/-- Publishing an op puts its masks on the end of the row's chain. -/
theorem labelChain_publish (epoch : Epoch) (o : Overlays) (op : Op) (table : UInt32)
    (row : UInt64) : labelChain (o.publish epoch op) table row =
      labelChain o table row ++ ((op.masksOn table row).toList.map fun masks => (epoch, masks)) := by
  cases op with
  | updateLabels t r add remove =>
      rw [Overlays.publish, labelChain_label, Op.masksOn]
      by_cases h : t = table ∧ r = row
      · rw [if_pos h, if_pos h]
        rfl
      · rw [if_neg h, if_neg h]
        rfl
  | insertNodes t cols rows =>
      rw [Overlays.publish, labelChain_table fun t => ?_]
      · exact (List.append_nil _).symm
      · rfl
  | update t offset col value =>
      rw [Overlays.publish, labelChain_table fun t => ?_]
      · exact (List.append_nil _).symm
      · rfl
  | delete t offset =>
      rw [Overlays.publish, labelChain_table fun t => ?_]
      · exact (List.append_nil _).symm
      · rfl
  | insertRel rel src dst cols => exact (List.append_nil _).symm
  | deleteRel rel src dst => exact (List.append_nil _).symm
  | updateRel rel src dst col value => exact (List.append_nil _).symm

theorem labelChain_apply (m : Mvcc) (epoch : Epoch) (ops : List Op) (table : UInt32)
    (row : UInt64) : labelChain (m.apply epoch ops).toOverlays table row =
      labelChain m.toOverlays table row ++
        (ops.filterMap (Op.masksOn table row)).map fun masks => (epoch, masks) := by
  have hfold : ∀ m' : Mvcc, labelChain (ops.foldl (Mvcc.publish epoch) m').toOverlays table row =
      labelChain m'.toOverlays table row ++
        (ops.filterMap (Op.masksOn table row)).map fun masks => (epoch, masks) := by
    intro m'
    induction ops generalizing m' with
    | nil => exact (List.append_nil _).symm
    | cons op ops ih =>
        rw [List.foldl_cons, ih, List.filterMap_cons]
        change labelChain (m'.toOverlays.publish epoch op) table row ++ _ = _
        rw [labelChain_publish, List.append_assoc]
        cases op.masksOn table row with
        | none => rfl
        | some masks => rfl
  exact hfold { m with deferred := [] }

/-- A store after transactions committed at epochs, from an overlay that is empty. -/
def published (start : Epoch) (txns : List (Epoch × List Call)) : Mvcc :=
  txns.foldl (fun m txn => m.apply txn.1 (staged txn.2)) (Mvcc.new start)

/-- The label changes of a row by the transactions at or below an epoch, in order. -/
def changesOf (txns : List (Epoch × List Call)) (table : UInt32) (row : UInt64)
    (epoch : Epoch) : List (UInt64 × UInt64) :=
  (txns.filter fun txn => txn.1 ≤ epoch).flatMap fun txn =>
    (staged txn.2).filterMap (Op.masksOn table row)

theorem labelChain_published (start : Epoch) (txns : List (Epoch × List Call)) (table : UInt32)
    (row : UInt64) : labelChain (published start txns).toOverlays table row =
      txns.flatMap fun txn =>
        ((staged txn.2).filterMap (Op.masksOn table row)).map fun masks => (txn.1, masks) := by
  have hfold : ∀ m : Mvcc, labelChain
      (txns.foldl (fun m txn => m.apply txn.1 (staged txn.2)) m).toOverlays table row =
        labelChain m.toOverlays table row ++ txns.flatMap fun txn =>
          ((staged txn.2).filterMap (Op.masksOn table row)).map fun masks => (txn.1, masks) := by
    intro m
    induction txns generalizing m with
    | nil => exact (List.append_nil _).symm
    | cons txn txns ih => rw [List.foldl_cons, ih, labelChain_apply, List.append_assoc,
        List.flatMap_cons]
  exact hfold (Mvcc.new start)

theorem seen_published (start : Epoch) (txns : List (Epoch × List Call)) (table : UInt32)
    (row : UInt64) (epoch : Epoch) :
    ((labelChain (published start txns).toOverlays table row).filter
      fun e => e.1 ≤ epoch).map Prod.snd = changesOf txns table row epoch := by
  rw [labelChain_published, changesOf]
  induction txns with
  | nil => rfl
  | cons txn txns ih =>
      rw [List.flatMap_cons, List.filter_append, List.map_append, ih, List.filter_cons,
        List.filter_map]
      by_cases h : txn.1 ≤ epoch
      · have hall : ∀ masks ∈ (staged txn.2).filterMap (Op.masksOn table row),
            ((fun e : Epoch × UInt64 × UInt64 => decide (e.1 ≤ epoch)) ∘
              fun masks => (txn.1, masks)) masks = true := fun _ _ => decide_eq_true h
        rw [List.filter_eq_self.2 hall, if_pos (decide_eq_true h), List.flatMap_cons, List.map_map]
        congr 1
        exact List.map_id _
      · have hnone : ∀ masks ∈ (staged txn.2).filterMap (Op.masksOn table row),
            ¬ ((fun e : Epoch × UInt64 × UInt64 => decide (e.1 ≤ epoch)) ∘
              fun masks => (txn.1, masks)) masks = true := fun _ _ hle => h (of_decide_eq_true hle)
        rw [List.filter_eq_nil_iff.2 hnone, if_neg (by simpa using h)]
        rfl

theorem disjoint_of_staged {calls : List Call} {table : UInt32} {row : UInt64}
    {masks : UInt64 × UInt64} (h : masks ∈ (staged calls).filterMap (Op.masksOn table row)) :
    masks.1 &&& masks.2 = 0 := by
  obtain ⟨op, hop, hmasks⟩ := List.mem_filterMap.1 h
  obtain ⟨call, -, hcall⟩ := List.mem_filterMap.1 hop
  cases hop : call.op with
  | error e =>
      rw [hop] at hcall
      cases hcall
  | ok op' =>
      rw [hop] at hcall
      cases hcall
      have hbuilt := built_of_op hop
      cases op with
      | updateLabels t r add remove =>
          rw [Op.masksOn] at hmasks
          split at hmasks
          · cases hmasks
            exact hbuilt
          · cases hmasks
      | insertNodes t cols rows => cases hmasks
      | update t offset col value => cases hmasks
      | delete t offset => cases hmasks
      | insertRel rel src dst cols => cases hmasks
      | deleteRel rel src dst => cases hmasks
      | updateRel rel src dst col value => cases hmasks

theorem getElem?_labelChanges (m : Mvcc) (table : UInt32) (row : UInt64) (epoch : Epoch) :
    (m.labelChanges table epoch)[row]? =
      let seen := (labelChain m.toOverlays table row).filter fun e => e.1 ≤ epoch
      if seen = [] then none else some (Mvcc.composeLabels seen) := by
  rw [Mvcc.labelChanges, labelChain]
  cases m.tables[table]? with
  | none => rfl
  | some t =>
      rw [Option.elim_some, Option.elim_some, Std.ExtTreeMap.getElem?_filterMap]
      cases t.labels[row]? with
      | none => rfl
      | some chain => rfl

theorem labelChanges_published (start : Epoch) (txns : List (Epoch × List Call)) (table : UInt32)
    (row : UInt64) (epoch : Epoch) :
    ((published start txns).labelChanges table epoch)[row]? =
      let changes := changesOf txns table row epoch
      if changes = [] then none else some (changes.foldl composed (0, 0)) := by
  rw [getElem?_labelChanges]
  simp only [composeLabels_eq, seen_published]
  have hnil := seen_published start txns table row epoch
  by_cases h : (labelChain (published start txns).toOverlays table row).filter
      (fun e => e.1 ≤ epoch) = []
  · rw [if_pos h, if_pos]
    rw [← hnil, h]
    rfl
  · rw [if_neg h, if_neg]
    rw [← hnil]
    exact fun h' => h (List.map_eq_nil_iff.1 h')

theorem disjoint_changesOf {txns : List (Epoch × List Call)} {table : UInt32} {row : UInt64}
    {epoch : Epoch} : ∀ masks ∈ changesOf txns table row epoch, masks.1 &&& masks.2 = 0 := by
  intro masks h
  obtain ⟨txn, -, hmem⟩ := List.mem_flatMap.1 h
  exact disjoint_of_staged hmem

/-! ### The fold of labels -/

/-- What the rows of a table may be called. -/
structure Labels where
  primary : UInt16
  declared : UInt64
  name : String
  graphType : Option Schema.GraphType
  names : List String

def spell (word : UInt64) (names : List String) : String :=
  String.intercalate ", " (((List.range 64).filter fun id => word.toBitVec.getLsbD id).map fun id =>
    (names[id]?).getD s!"label {id}")

/-- A word in hexadecimal, as messages have it. -/
def hex (word : UInt64) : String := "0x" ++ String.ofList (Nat.toDigits 16 word.toNat)

def applyLabelChanges (labels : Labels) (table : UInt32) :
    List (UInt64 × UInt64 × UInt64) → List UInt64 → Except ZuError (List UInt64)
  | [], words => .ok words
  | (offset, add, remove) :: changes, words =>
      let undeclared := add &&& ~~~labels.declared
      if undeclared ≠ 0 then .error (.invalidArgument
        s!"a label change puts {hex undeclared} on a row of table {table}, which has not declared it")
      else if remove &&& ((1 : UInt64) <<< labels.primary.toUInt64) ≠ 0 then .error (.invalidArgument
        s!"a label change takes the name of table {table} off one of its own rows")
      else
        match words[offset.toNat]? with
        | none => .error (.invalidArgument
            s!"a label change names row {offset} of table {table}, which holds {words.length} rows")
        | some word =>
            let after := changeWord word (add, remove)
            match labels.graphType.filter fun ty => (ty.holder .node after).isNone with
            | some ty => .error (.gql "G2000"
                s!"the element at row {offset} of '{labels.name}' would carry {spell after labels.names} after this change, and no element type of graph type '{ty.name}' describes a node carrying that")
            | none => applyLabelChanges labels table changes (words.set offset.toNat after)

/-- The label words of the rows of a table before its changes: those of the base, and the
table's own label for a row that is new. -/
def wideWords (labels : Labels) (base : List UInt64) (newCount : ℕ) : List UInt64 :=
  (base ++ List.replicate (newCount - base.length) ((1 : UInt64) <<< labels.primary.toUInt64)).take newCount

def foldLabels (m : Mvcc) (table : UInt32) (labels : Labels) (base : List UInt64)
    (newCount : ℕ) (epoch : Epoch) : Except ZuError (List UInt64) :=
  applyLabelChanges labels table (m.labelChanges table epoch).toList
    (wideWords labels base newCount)

theorem length_wideWords (labels : Labels) (base : List UInt64) (newCount : ℕ) :
    (wideWords labels base newCount).length = newCount := by
  rw [wideWords, List.length_take, List.length_append, List.length_replicate]
  omega

theorem set_eq_modify {words : List UInt64} {i : ℕ} {word : UInt64} (h : words[i]? = some word)
    (f : UInt64 → UInt64) : words.set i (f word) = words.modify i f := by
  apply List.ext_getElem?
  intro j
  by_cases hij : i = j
  · subst hij
    rw [List.getElem?_modify_eq, h, List.getElem?_set_self (List.getElem?_eq_some_iff.1 h).1]
    rfl
  · rw [List.getElem?_modify_ne _ _ hij, List.getElem?_set_ne hij]

theorem applyLabelChanges_ok {labels : Labels} {table : UInt32}
    {changes : List (UInt64 × UInt64 × UInt64)} {words words' : List UInt64}
    (h : applyLabelChanges labels table changes words = .ok words') :
    words' = rewriteAt (fun masks word => changeWord word masks) words
      (changes.map fun c => (c.1.toNat, c.2)) := by
  induction changes generalizing words with
  | nil =>
      cases h
      rfl
  | cons c changes ih =>
      rw [applyLabelChanges] at h
      simp only at h
      split at h
      · cases h
      · split at h
        · cases h
        · cases hword : words[c.1.toNat]? with
          | none =>
              rw [hword] at h
              cases h
          | some word =>
              rw [hword] at h
              simp only at h
              split at h
              · cases h
              · rw [ih h, List.map_cons, rewriteAt_cons, ← set_eq_modify hword]

theorem nodup_offsets (changes : Std.ExtTreeMap UInt64 (UInt64 × UInt64)) :
    ((changes.toList.map fun c => (c.1.toNat, c.2)).map Prod.fst).Nodup := by
  rw [List.map_map]
  apply List.Pairwise.map _ _ changes.distinct_keys_toList
  intro a b hne heq
  apply hne
  rw [UInt64.toNat_inj.1 heq]
  exact Std.ReflCmp.compare_self

/-- One pair of masks for a row is all its changes: the masks of a row at an epoch are
disjoint, they change a word as the changes of the row committed by then do in order, and
the words a fold writes are the words so changed. -/
theorem labels_composed (start : Epoch) (txns : List (Epoch × List Call)) (table : UInt32)
    (epoch : Epoch) :
    (∀ (row : UInt64) (masks : UInt64 × UInt64), ((published start txns).labelChanges table epoch)[row]? = some masks →
      masks.1 &&& masks.2 = 0) ∧
    (∀ row word : UInt64, changeWord word
        ((((published start txns).labelChanges table epoch)[row]?).getD (0, 0)) =
      (changesOf txns table row epoch).foldl changeWord word) ∧
    ∀ (labels : Labels) (base words : List UInt64) (newCount : ℕ),
      foldLabels (published start txns) table labels base newCount epoch = .ok words →
      words.length = newCount ∧
      ∀ row : UInt64, words[row.toNat]? = ((wideWords labels base newCount)[row.toNat]?).map
        fun word => (changesOf txns table row epoch).foldl changeWord word := by
  have hspec : ∀ row, ((changesOf txns table row epoch).foldl composed (0, 0)).1 &&&
      ((changesOf txns table row epoch).foldl composed (0, 0)).2 = 0 ∧
      ∀ word, changeWord word ((changesOf txns table row epoch).foldl composed (0, 0)) =
        (changesOf txns table row epoch).foldl changeWord word := by
    intro row
    have h := @composed_spec _ (@disjoint_changesOf txns table row epoch) (0, 0) rfl
    refine ⟨h.1, fun word => ?_⟩
    rw [h.2, changeWord_zero]
  have hword : ∀ row word : UInt64, changeWord word
      ((((published start txns).labelChanges table epoch)[row]?).getD (0, 0)) =
        (changesOf txns table row epoch).foldl changeWord word := by
    intro row word
    rw [labelChanges_published]
    simp only
    split
    · next hnil =>
        rw [hnil, Option.getD_none, changeWord_zero]
        rfl
    · rw [Option.getD_some, (hspec row).2]
  refine ⟨?_, hword, ?_⟩
  · intro row masks h
    rw [labelChanges_published] at h
    simp only at h
    split at h
    · cases h
    · cases h
      exact (hspec row).1
  · intro labels base words newCount h
    have heq := applyLabelChanges_ok h
    refine ⟨heq ▸ (length_rewriteAt _ _).trans (length_wideWords labels base newCount),
      fun row => ?_⟩
    rw [heq]
    have hrow := hword row
    cases hmasks : ((published start txns).labelChanges table epoch)[row]? with
    | none =>
        rw [hmasks, Option.getD_none] at hrow
        rw [getElem?_rewriteAt_of_not_mem]
        · cases (wideWords labels base newCount)[row.toNat]? with
          | none => rfl
          | some word =>
              rw [Option.map_some, ← hrow word, changeWord_zero]
        · intro u hu hrowu
          obtain ⟨c, hc, rfl⟩ := List.mem_map.1 hu
          have hget := Std.ExtTreeMap.mem_toList_iff_getElem?_eq_some.1 hc
          rw [UInt64.toNat_inj.1 hrowu, hmasks] at hget
          cases hget
    | some masks =>
        rw [hmasks, Option.getD_some] at hrow
        have hmem := Std.ExtTreeMap.mem_toList_iff_getElem?_eq_some.2 hmasks
        rw [getElem?_rewriteAt_of_mem (nodup_offsets _) (List.mem_map.2 ⟨_, hmem, rfl⟩)]
        congr 1
        funext word
        exact hrow word

/-- A label put on a row by one transaction and taken off it by the next. -/
def onAndOff : List (Epoch × List Call) :=
  [(1, [.updateLabels 1 0 2 0]), (2, [.updateLabels 1 0 0 2])]

theorem labels_onAndOff :
    changeWord 1 ((((published 0 onAndOff).labelChanges 1 2)[(0 : UInt64)]?).getD (0, 0)) =
      (changesOf onAndOff 1 0 2).foldl changeWord 1 :=
  (labels_composed 0 onAndOff 1 2).2.1 0 1

end Zu.Txn
