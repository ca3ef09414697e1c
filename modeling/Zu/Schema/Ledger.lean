import Zu.Schema.Grown

/-!
# The ids a file has handed out

`Ledger` is the catalog of a file next to a note of every id that was ever handed to a
graph or to a table, in the order they were handed out. No program reads the notes;
what an id names is settled by the last time it was handed out.
-/

namespace Zu.Schema

open Lib

/-- A catalog, and the ids that were handed to its graphs and tables so far. -/
structure Ledger where
  catalog : Catalog
  graphLog : List UInt32
  tableLog : List UInt32

/-- A program over the catalog in hand that notes the ids it hands out. -/
abbrev LedgerM := Fallible ZuError Ledger

def newIds (old ids : List UInt32) : List UInt32 := ids.filter fun id => id ∉ old

namespace Ledger

/-- A new file: the home graph has its id. -/
def new : Ledger := ⟨.new, [homeId], []⟩

/-- Notes the ids an operation handed out that left the catalog `c`. -/
def advance (s : Ledger) (c : Catalog) : Ledger where
  catalog := c
  graphLog := s.graphLog ++ newIds s.catalog.graphIds c.graphIds
  tableLog := s.tableLog ++ newIds s.catalog.tableIds c.tableIds

/-- When the id was last handed out. -/
def bornIn (id : UInt32) : List UInt32 → Option ℕ
  | [] => none
  | x :: log =>
      match bornIn id log with
      | some n => some (n + 1)
      | none => if x = id then some 0 else none

/-- The graph an id names is the one that was made as the `n`-th. -/
def Means (s : Ledger) (id : UInt32) (n : ℕ) : Prop :=
  (s.catalog.graphById id).isSome ∧ bornIn id s.graphLog = some n

end Ledger

/-- Runs an operation of the catalog and notes the ids it hands out. -/
def note {α : Type} (x : CatalogM α) : LedgerM α := fun s =>
  ((x.exec s.catalog).1, s.advance (x.exec s.catalog).2)

/-! ### Ids that are handed out once -/

/-- A note of the ids `ids` and of those before them: none was handed out twice, and none
is above all that are in use. -/
structure Noted (log ids : List UInt32) : Prop where
  once : log.Nodup
  below : ∀ x ∈ log, ∃ y ∈ ids, x ≤ y
  noted : ∀ x ∈ ids, x ∈ log

theorem newIds_eq_nil {old ids : List UInt32} (h : ∀ x ∈ ids, x ∈ old) : newIds old ids = [] :=
  List.filter_eq_nil_iff.2 fun x hx => by simpa using h x hx

theorem Noted.grow {log ids ids' new : List UInt32} (h : Noted log ids)
    (hperm : ids'.Perm (ids ++ new)) (habove : Above ids new) :
    Noted (log ++ newIds ids ids') ids' := by
  have hfresh : ∀ x, x ∈ newIds ids ids' ↔ x ∈ new := by
    intro x
    rw [newIds, List.mem_filter, hperm.mem_iff, List.mem_append, decide_eq_true_eq]
    constructor
    · exact fun hx => hx.1.resolve_left hx.2
    · intro hx
      exact ⟨Or.inr hx, fun hold => UInt32.lt_irrefl x (habove.2 x hold x hx)⟩
  have hnodup : (newIds ids ids').Nodup := by
    have hnew : new.Nodup := habove.1.imp fun {x y} (hlt : x < y) (heq : x = y) =>
      UInt32.lt_irrefl y (heq ▸ hlt)
    refine (hperm.filter _).nodup_iff.2 ?_
    rw [List.filter_append]
    have hold : newIds ids ids = [] := newIds_eq_nil fun _ hx => hx
    rw [newIds] at hold
    rw [hold, List.nil_append]
    exact hnew.filter _
  constructor
  · refine List.nodup_append.2 ⟨h.once, hnodup, fun x hx y hy heq => ?_⟩
    obtain ⟨z, hz, hle⟩ := h.below x hx
    have hlt := habove.2 z hz y ((hfresh y).1 hy)
    rw [← heq] at hlt
    exact UInt32.lt_irrefl z (UInt32.lt_of_lt_of_le hlt hle)
  · intro x hx
    rcases List.mem_append.1 hx with hx | hx
    · obtain ⟨y, hy, hle⟩ := h.below x hx
      exact ⟨y, hperm.mem_iff.2 (List.mem_append_left _ hy), hle⟩
    · exact ⟨x, List.mem_of_mem_filter hx, UInt32.le_refl x⟩
  · intro x hx
    rcases List.mem_append.1 (hperm.mem_iff.1 hx) with hx | hx
    · exact List.mem_append_left _ (h.noted x hx)
    · exact List.mem_append_right _ ((hfresh x).2 hx)

/-- So does taking ids away, as long as the highest stays. -/
theorem Noted.shrink {log ids ids' : List UInt32} (h : Noted log ids)
    (hsub : ∀ x ∈ ids', x ∈ ids) (hkeep : ∀ x ∈ ids, ∃ y ∈ ids', x ≤ y) :
    Noted (log ++ newIds ids ids') ids' := by
  rw [newIds_eq_nil hsub, List.append_nil]
  refine ⟨h.once, fun x hx => ?_, fun x hx => h.noted x (hsub x hx)⟩
  obtain ⟨y, hy, hle⟩ := h.below x hx
  obtain ⟨z, hz, hle'⟩ := hkeep y hy
  exact ⟨z, hz, UInt32.le_trans hle hle'⟩

/-- A ledger whose notes are right, and that came out of `s₀`. -/
structure Ledger.After (s₀ s : Ledger) : Prop where
  graphs : Noted s.graphLog s.catalog.graphIds
  tables : Noted s.tableLog s.catalog.tableIds
  graphLog : s₀.graphLog <+: s.graphLog
  tableLog : s₀.tableLog <+: s.tableLog

theorem Noted.self {ids : List UInt32} (h : ids.Nodup) : Noted ids ids :=
  ⟨h, fun x hx => ⟨x, hx, UInt32.le_refl x⟩, fun _ hx => hx⟩

theorem Ledger.after_new : Ledger.new.After Ledger.new :=
  ⟨Noted.self (List.nodup_singleton _), Noted.self List.nodup_nil, List.prefix_rfl,
    List.prefix_rfl⟩

theorem Ledger.After.refl {s₀ s : Ledger} (h : s₀.After s) : s.After s :=
  ⟨h.graphs, h.tables, List.prefix_rfl, List.prefix_rfl⟩

/-- The highest ids are among those that stay when the graph goes. -/
structure Catalog.KeepsNewest (c : Catalog) (id : UInt32) : Prop where
  graphs : ∀ x ∈ c.graphIds, ∃ y ∈ (c.without id).graphIds, x ≤ y
  tables : ∀ x ∈ c.tableIds, ∃ y ∈ (c.without id).tableIds, x ≤ y

namespace Ledger

variable {s₀ s : Ledger}

theorem After.grow (h : s₀.After s) {c : Catalog} (hc : Grown s.catalog c) :
    s₀.After (s.advance c) := by
  obtain ⟨gs, hgraphs, hgs⟩ := hc.graphs
  obtain ⟨ts, htables, hts⟩ := hc.tables
  have hids : c.graphIds.Perm (s.catalog.graphIds ++ gs.map GraphDef.id) := by
    rw [Catalog.graphIds, hgraphs, List.map_append]
    exact List.Perm.refl _
  exact ⟨h.graphs.grow hids hgs, h.tables.grow htables hts,
    h.graphLog.trans (List.prefix_append _ _), h.tableLog.trans (List.prefix_append _ _)⟩

theorem graphIds_without {c : Catalog} {id x : UInt32} (hx : x ∈ (c.without id).graphIds) :
    x ∈ c.graphIds := by
  obtain ⟨g, hg, rfl⟩ := List.mem_map.1 hx
  exact List.mem_map_of_mem (List.mem_of_mem_filter hg)

theorem tableIds_without {c : Catalog} {id x : UInt32} (hx : x ∈ (c.without id).tableIds) :
    x ∈ c.tableIds := by
  rcases List.mem_append.1 hx with hx | hx
  · obtain ⟨t, ht, rfl⟩ := List.mem_map.1 hx
    exact List.mem_append_left _ (List.mem_map_of_mem (List.mem_of_mem_filter ht))
  · obtain ⟨t, ht, rfl⟩ := List.mem_map.1 hx
    exact List.mem_append_right _ (List.mem_map_of_mem (List.mem_of_mem_filter ht))

theorem After.shrink (h : s₀.After s) {id : UInt32} (hid : s.catalog.KeepsNewest id) :
    s₀.After (s.advance (s.catalog.without id)) :=
  ⟨h.graphs.shrink (fun _ => graphIds_without) hid.graphs,
    h.tables.shrink (fun _ => tableIds_without) hid.tables,
    h.graphLog.trans (List.prefix_append _ _), h.tableLog.trans (List.prefix_append _ _)⟩

end Ledger

theorem note_triple {s₀ : Ledger} {α : Type} {x : CatalogM α} {P Q : Catalog → Prop}
    (hx : ∀ c, P c → Triple (fun c' => c' = c) x (fun _ c' => Grown c c' ∧ Q c') fun _ => True) :
    Triple (fun s => s₀.After s ∧ P s.catalog) (note x) (fun _ s => s₀.After s ∧ Q s.catalog)
      fun _ => True := by
  rintro s ⟨hs, hP⟩
  refine ⟨fun a t ht => ?_, fun _ _ _ => trivial⟩
  have hrun : ((x.exec s.catalog).1, s.advance (x.exec s.catalog).2) = (.ok a, t) := ht
  obtain ⟨hok, rfl⟩ := Prod.mk.inj hrun
  obtain ⟨hgrown, hQ⟩ := (hx s.catalog hP s.catalog rfl).1 a _ (Prod.ext hok rfl)
  exact ⟨hs.grow hgrown, hQ⟩

/-- The drop of a graph keeps them right when the highest ids stay. -/
theorem note_dropGraph_triple {s₀ : Ledger} (id : UInt32) :
    Triple (fun s => s₀.After s ∧ s.catalog.KeepsNewest id) (note (dropGraph id))
      (fun _ s => s₀.After s) fun _ => True := by
  rintro s ⟨hs, hid⟩
  refine ⟨fun a t ht => ?_, fun _ _ _ => trivial⟩
  have hrun : ((dropGraph id).exec s.catalog).1 = .ok a ∧
      s.advance ((dropGraph id).exec s.catalog).2 = t := Prod.mk.inj ht
  rw [← hrun.2, exec_dropGraph]
  split_ifs
  · exact hs.grow (Grown.refl _)
  · exact hs.shrink hid

/-! ### What an id names -/

/-- Ids that were handed out later leave an older one where it was. -/
theorem Ledger.bornIn_append {id : UInt32} {log new : List UInt32} (h : id ∉ new) :
    bornIn id (log ++ new) = bornIn id log := by
  induction log with
  | nil =>
      induction new with
      | nil => rfl
      | cons x new ih =>
          have hx : x ≠ id := fun heq => h (heq ▸ List.mem_cons_self)
          have hrest : bornIn id new = none := ih fun hmem => h (List.mem_cons_of_mem _ hmem)
          simp only [List.nil_append, bornIn, hrest, if_neg hx]
  | cons x log ih => simp only [List.cons_append, bornIn, ih]

/-- An id that is in use names, as long as it is, the graph it named. -/
theorem Ledger.After.means {s t : Ledger} (hs : s.After s) (h : s.After t) {id : UInt32} {n : ℕ}
    (hid : s.Means id n) (hthere : (t.catalog.graphById id).isSome) : t.Means id n := by
  refine ⟨hthere, ?_⟩
  obtain ⟨g, hg⟩ := Option.isSome_iff_exists.1 hid.1
  have hgid := List.find?_some hg
  have hmem : id ∈ s.graphLog := by
    refine hs.graphs.noted id (List.mem_map.2 ⟨g, List.mem_of_find?_eq_some hg, ?_⟩)
    exact of_decide_eq_true hgid
  obtain ⟨new, hnew⟩ := h.graphLog
  have honce := h.graphs.once
  rw [← hnew] at honce ⊢
  rw [bornIn_append fun hin => (List.nodup_append.1 honce).2.2 id hmem id hin rfl]
  exact hid.2

end Zu.Schema
