import Zu.Lib.Checked
import Zu.Lib.Tiles

/-!
# Morsels

What a query walks is cut into morsels: the rows of a scan, the keys of a batch, or the
neighbours of a seed. A short batch is cut along both of the last two at once.
-/

namespace Zu.Exec

open Lib Checked

/-- A schedule either comes out or panics. -/
abbrev Kernel (α : Type) := Checked Empty α

def scanRows : ℕ := 1024

def groupRows : ℕ := 131072

def splitRows : ℕ := 2 * 1024

def weighKeysPerCore : ℕ := 4

/-- A division of words. -/
def div (n d : ℕ) : Kernel ℕ := if d = 0 then .error .panicked else .ok (n / d)

/-- Steps of `target` from `lo` up to `hi`. A loop that does not end in its turns has no
result. -/
def cutSteps (checks : Bool) (target hi : ℕ) : ℕ → ℕ → Kernel (List (ℕ × ℕ))
  | 0, lo => if lo < hi then .error .panicked else .ok []
  | turns + 1, lo =>
      if lo < hi then do
        let reach ← word checks (lo + target)
        let rest ← cutSteps checks target hi turns (min reach hi)
        return (lo, min reach hi) :: rest
      else .ok []

/-- The storage groups one after another, each cut by itself. -/
def cutGroups (checks : Bool) (target rows : ℕ) : ℕ → ℕ → Kernel (List (ℕ × ℕ))
  | 0, lo => if lo < rows then .error .panicked else .ok []
  | turns + 1, lo =>
      if lo < rows then do
        let reach ← word checks (lo + groupRows)
        let group ← cutSteps checks target (min reach rows) rows lo
        let rest ← cutGroups checks target rows turns (min reach rows)
        return group ++ rest
      else .ok []

def splitMorsels (checks : Bool) (rows want : ℕ) : Kernel (List (ℕ × ℕ)) :=
  cutGroups checks (max scanRows (min want groupRows) / scanRows * scanRows) rows rows 0

def makeMorsels (checks : Bool) (rows workers : ℕ) : Kernel (List (ℕ × ℕ)) := do
  let many ← word checks (workers * 32)
  let want ← div rows many
  splitMorsels checks rows want

inductive Work
  | scan
  | seek (seed : Option ℕ)
  | seeks
  | frontier (seed level : ℕ)
  | hybrid (level : ℕ)

inductive Part
  | keys
  | frontier (seed key front : ℕ)

structure FrontierList where
  list : List ℕ
  ords : List ℕ

structure Schedule where
  work : Work
  morsels : List (ℕ × ℕ)
  parts : List Part
  seeded : List (Option ℕ)
  fronts : List FrontierList
  threads : ℕ

/-- The first hop of a plan, where it is a plain walk from the driving level: the level it
builds, whether that level reads the edges, whether the next operator is a plain hop from
there and whether it walks on at all. -/
structure Hop where
  level : ℕ
  ords : Bool
  next : Bool
  walksOn : Bool

/-- What a schedule reads of the snapshot: the row behind a key, a row's list along the first
hop and the edges beside it, and the degrees along the first hop and the next. -/
structure Snapshot where
  seekKey : ℕ → Option ℕ
  list : ℕ → List ℕ
  ords : ℕ → List ℕ
  degree : ℕ → ℕ
  nextDegree : ℕ → ℕ

def Snapshot.frontierOf (snap : Snapshot) (hop : Hop) (seed : ℕ) : FrontierList :=
  ⟨snap.list seed, if hop.ords then snap.ords seed else []⟩

/-- `scan_work`. `parallel` is how many threads the machine gives, eight at most, and
`intersects` is whether the plan closes a cycle. -/
def scanWork (checks : Bool) (totalRows : ℕ) (intersects : Bool) (parallel threads : ℕ) :
    Kernel Schedule := do
  let threads :=
    if threads = 0 then if totalRows ≤ groupRows ∧ ¬ intersects then 1 else parallel else threads
  let morsels ← makeMorsels checks totalRows (max threads 1)
  return ⟨.scan, morsels, [], [], [], threads⟩

/-- One morsel for the whole of a seek. -/
def seekOne (seed : Option ℕ) : Schedule := ⟨.seek seed, [(0, 0)], [], [], [], 1⟩

/-- The cuts of a frontier, by the weights from position `i` on. -/
def cutFrontier (checks : Bool) (target len : ℕ) : ℕ → ℕ → ℕ → List ℕ → Kernel (List (ℕ × ℕ))
  | _, lo, _, [] => .ok [(lo, len)]
  | i, lo, acc, w :: ws => do
      let acc ← word checks (acc + w)
      if target ≤ acc ∧ i + 1 < len then do
        let rest ← cutFrontier checks target len (i + 1) (i + 1) 0 ws
        return (lo, i + 1) :: rest
      else cutFrontier checks target len (i + 1) lo acc ws

/-- The weights of a seed's neighbours: one each, and their own degrees on top where the next
operator walks on from them. -/
def Snapshot.weights (snap : Snapshot) (hop : Hop) (seed : ℕ) : List ℕ :=
  (snap.list seed).map fun v => if hop.next then max (1 + snap.nextDegree v) 1 else 1

def seekWork (checks : Bool) (snap : Snapshot) (hop : Option Hop) (parallel threads key : ℕ) :
    Kernel Schedule :=
  match snap.seekKey key with
  | none => .ok (seekOne none)
  | some seed =>
      if threads = 1 then .ok (seekOne (some seed))
      else
        match hop with
        | none => .ok (seekOne (some seed))
        | some hop => do
            let total ← word checks (snap.weights hop seed).sum
            if total < splitRows then return seekOne (some seed)
            let threads := if threads = 0 then parallel else threads
            if threads < 2 then return seekOne (some seed)
            let many ← word checks (threads * 4)
            let target ← div total many
            let morsels ← cutFrontier checks (max target 1) (snap.list seed).length 0 0 0
              (snap.weights hop seed)
            return ⟨.frontier seed hop.level, morsels, [], [], [snap.frontierOf hop seed], threads⟩

/-- A key of a short batch with the row behind it and what it is worth. -/
structure WeighedKey where
  key : ℕ
  seeded : Option ℕ
  weight : ℕ

/-- `weigh_keys`: a key is worth its own degree, and one at the least. -/
def Snapshot.weigh (snap : Snapshot) (key : ℕ) : WeighedKey :=
  ⟨key, snap.seekKey key, ((snap.seekKey key).map fun row => max (snap.degree row) 1).getD 1⟩

/-- A key worth more than a worker's share is cut along its own frontier. -/
def heavy (share : ℕ) (w : WeighedKey) : Bool := decide (share ≤ w.weight ∧ 1 < w.weight)

/-- The morsels of a batch, from position `i` on, with the frontiers cut so far counted by
`cut`. -/
def cutBatch (checks : Bool) (snap : Snapshot) (hop : Hop) (share target : ℕ) :
    ℕ → ℕ → ℕ → ℕ → List WeighedKey → Kernel (List ((ℕ × ℕ) × Part) × List FrontierList)
  | i, lo, _, _, [] => .ok (if lo < i then [((lo, i), .keys)] else [], [])
  | i, lo, acc, cut, w :: ws =>
      if heavy share w then
        match w.seeded with
        | none => .error .panicked
        | some seed => do
            let front := snap.frontierOf hop seed
            let slices ← cutSteps checks target front.list.length front.list.length 0
            let (rest, fronts) ←
              cutBatch checks snap hop share target (i + 1) (i + 1) 0 (cut + 1) ws
            let before := if lo < i then [((lo, i), Part.keys)] else []
            return (before ++ slices.map (·, .frontier seed w.key cut) ++ rest, front :: fronts)
      else do
        let acc ← word checks (acc + w.weight)
        if target ≤ acc then do
          let (rest, fronts) ← cutBatch checks snap hop share target (i + 1) (i + 1) 0 cut ws
          return (((lo, i + 1), .keys) :: rest, fronts)
        else cutBatch checks snap hop share target (i + 1) lo acc cut ws

def hybridWork (checks : Bool) (snap : Snapshot) (hop : Hop) (cores : ℕ) (keys : List ℕ) :
    Kernel (Option Schedule) := do
  let weighed := keys.map snap.weigh
  let total ← word checks (weighed.map WeighedKey.weight).sum
  if total < splitRows then return none
  let share ← div total cores
  let many ← word checks (cores * 4)
  let target ← div total many
  let (cuts, fronts) ← cutBatch checks snap hop (max share 1) (max target 1) 0 0 0 0 weighed
  if cuts.length < 2 then return none
  return some ⟨.hybrid hop.level, cuts.map Prod.fst, cuts.map Prod.snd,
    weighed.map WeighedKey.seeded, fronts, min cores cuts.length⟩

def seeksWork (checks : Bool) (snap : Snapshot) (hop : Option Hop) (parallel threads : ℕ)
    (keys : List ℕ) (weigh : Bool) : Kernel Schedule := do
  let cores := if threads = 0 then parallel else threads
  let short ← isShort cores
  match hop.filter fun hop => short && hop.walksOn with
  | none => plain cores []
  | some hop => do
      match ← hybridWork checks snap hop cores keys with
      | some sched => return sched
      | none => plain cores (keys.map snap.seekKey)
where
  /-- Whether the batch is short enough to be weighed. -/
  isShort (cores : ℕ) : Kernel Bool :=
    if weigh ∧ 1 < cores ∧ keys ≠ [] then do
      let room ← word checks (cores * weighKeysPerCore)
      return decide (keys.length ≤ room)
    else .ok false
  /-- The keys cut by position. -/
  plain (cores : ℕ) (seeded : List (Option ℕ)) : Kernel Schedule := do
    let threads := if threads = 0 then if keys.length ≤ splitRows then 1 else cores else threads
    let morsels ← makeMorsels checks keys.length (max threads 1)
    return ⟨.seeks, morsels, [], seeded, [], threads⟩

/-! ### What the morsels cover -/

/-- One thing a morsel runs the rest of the plan over. -/
inductive Item
  | row (r : ℕ)
  | seed (found : Option ℕ)
  | key (k : ℕ)
  | neighbour (key : Option ℕ) (seed v : ℕ)

/-- What a morsel of a batch covers. -/
def Part.items (keys : List ℕ) (fronts : List FrontierList) (m : ℕ × ℕ) : Part → List Item
  | .keys => (stretch keys m).map .key
  | .frontier seed key front =>
      (stretch ((fronts[front]?.map FrontierList.list).getD []) m).map (.neighbour (some key) seed)

/-- What each morsel covers, in the order of the morsels. `rows` is how many rows the scan
has, and `keys` are those of the batch. -/
def Schedule.items (s : Schedule) (rows : ℕ) (keys : List ℕ) : List (List Item) :=
  match s.work with
  | .scan => s.morsels.map fun m => (stretch (List.range rows) m).map .row
  | .seek seed => s.morsels.map fun _ => [.seed seed]
  | .seeks => s.morsels.map fun m => (stretch keys m).map .key
  | .frontier seed _ => s.morsels.map fun m =>
      (stretch ((s.fronts[0]?.map FrontierList.list).getD []) m).map (.neighbour none seed)
  | .hybrid _ => (s.morsels.zip s.parts).map fun m => m.2.items keys s.fronts m.1

/-! ### The cuts tile what they cut -/

section

variable (checks : Bool)

theorem cutSteps_tiles {target : ℕ} (hi turns lo : ℕ) (htarget : 0 < target)
    (hfit : hi + target ≤ 2 ^ 64) (hle : lo ≤ hi) (hturns : hi ≤ lo + turns) :
    ∃ ms, cutSteps checks target hi turns lo = .ok ms ∧ Tiles lo ms hi := by
  induction turns generalizing lo with
  | zero =>
      have hend : lo = hi := Nat.le_antisymm hle hturns
      rw [cutSteps, if_neg (by omega)]
      exact ⟨[], rfl, hend⟩
  | succ turns ih =>
      rw [cutSteps]
      by_cases hlt : lo < hi
      · obtain ⟨rest, hrest, htiles⟩ :=
          ih (min (lo + target) hi) (Nat.min_le_right _ _) (by omega)
        rw [if_pos hlt, word_of_lt (by omega)]
        show ∃ ms, (cutSteps checks target hi turns (min (lo + target) hi) >>= _) = _ ∧ _
        rw [hrest]
        refine ⟨_, rfl, rfl, ?_, htiles⟩
        show lo < min (lo + target) hi
        omega
      · rw [if_neg hlt]
        exact ⟨[], rfl, Nat.le_antisymm hle (Nat.le_of_not_lt hlt)⟩

theorem cutGroups_tiles {target rows turns : ℕ} (lo : ℕ) (htarget : 0 < target)
    (hgroup : target ≤ groupRows) (hfit : rows + groupRows ≤ 2 ^ 64) (hle : lo ≤ rows)
    (hturns : rows ≤ lo + turns) :
    ∃ ms, cutGroups checks target rows turns lo = .ok ms ∧ Tiles lo ms rows := by
  induction turns generalizing lo with
  | zero =>
      have hend : lo = rows := Nat.le_antisymm hle hturns
      rw [cutGroups, if_neg (by omega)]
      exact ⟨[], rfl, hend⟩
  | succ turns ih =>
      rw [cutGroups]
      by_cases hlt : lo < rows
      · have hpos : 0 < groupRows := by decide
        obtain ⟨group, hsteps, hfirst⟩ := cutSteps_tiles checks
          (min (lo + groupRows) rows) rows lo htarget (by omega) (by omega) (by omega)
        obtain ⟨rest, hrest, htiles⟩ :=
          ih (min (lo + groupRows) rows) (Nat.min_le_right _ _) (by omega)
        rw [if_pos hlt, word_of_lt (by omega)]
        show ∃ ms, (cutSteps checks target (min (lo + groupRows) rows) rows lo >>= _) = _ ∧ _
        rw [hsteps]
        show ∃ ms, (cutGroups checks target rows turns (min (lo + groupRows) rows) >>= _) = _ ∧ _
        rw [hrest]
        exact ⟨_, rfl, hfirst.append htiles⟩
      · rw [if_neg hlt]
        exact ⟨[], rfl, Nat.le_antisymm hle (Nat.le_of_not_lt hlt)⟩

/-- A morsel is whole chunks, no fewer than one and no more than a group. -/
theorem splitMorsels_tiles {rows : ℕ} (want : ℕ) (hfit : rows + groupRows ≤ 2 ^ 64) :
    ∃ ms, splitMorsels checks rows want = .ok ms ∧ Tiles 0 ms rows := by
  have hchunk : 1 ≤ max scanRows (min want groupRows) / scanRows := by
    rw [Nat.one_le_div_iff (by decide)]
    exact Nat.le_max_left _ _
  have hgroup : max scanRows (min want groupRows) ≤ groupRows :=
    Nat.max_le.2 ⟨by decide, Nat.min_le_right _ _⟩
  apply cutGroups_tiles checks 0 _ (Nat.le_trans (Nat.div_mul_le_self _ _) hgroup) hfit (Nat.zero_le _)
    (Nat.le_of_eq (Nat.zero_add rows).symm)
  exact Nat.mul_pos hchunk (by decide)

theorem makeMorsels_tiles {rows workers : ℕ} (hpos : 0 < workers)
    (hworkers : workers * 32 < 2 ^ 64) (hfit : rows + groupRows ≤ 2 ^ 64) :
    ∃ ms, makeMorsels checks rows workers = .ok ms ∧ Tiles 0 ms rows := by
  obtain ⟨ms, hms, htiles⟩ := splitMorsels_tiles checks (rows / (workers * 32)) hfit
  refine ⟨ms, ?_, htiles⟩
  rw [makeMorsels, word_of_lt hworkers]
  show (div rows (workers * 32) >>= _) = _
  rw [div, if_neg (by omega)]
  exact hms

theorem cutFrontier_tiles (target : ℕ) {len : ℕ} (i lo acc : ℕ) {ws : List ℕ} (hlen : i + ws.length = len)
    (hle : lo ≤ i) (hlt : lo < len) (hfit : acc + ws.sum < 2 ^ 64) :
    ∃ ms, cutFrontier checks target len i lo acc ws = .ok ms ∧ Tiles lo ms len := by
  induction ws generalizing i lo acc with
  | nil => exact ⟨[(lo, len)], rfl, rfl, hlt, rfl⟩
  | cons w ws ih =>
      rw [List.length_cons] at hlen
      rw [List.sum_cons] at hfit
      rw [cutFrontier, word_of_lt (by omega)]
      show ∃ ms, (if target ≤ acc + w ∧ i + 1 < len then
        cutFrontier checks target len (i + 1) (i + 1) 0 ws >>= _ else _) = _ ∧ _
      by_cases hcut : target ≤ acc + w ∧ i + 1 < len
      · obtain ⟨rest, hrest, htiles⟩ :=
          ih (i + 1) (i + 1) 0 (by omega) (Nat.le_refl _) hcut.2 (by omega)
        rw [if_pos hcut, hrest]
        exact ⟨_, rfl, rfl, Nat.lt_succ_of_le hle, htiles⟩
      · rw [if_neg hcut]
        exact ih (i + 1) lo (acc + w) (by omega) (by omega) hlt (by omega)

/-! ### What a schedule covers -/

theorem scanWork_covers {rows parallel threads : ℕ} (intersects : Bool) (keys : List ℕ)
    (hrows : rows + groupRows ≤ 2 ^ 64) (hparallel : parallel * 32 < 2 ^ 64)
    (hthreads : threads * 32 < 2 ^ 64) :
    ∃ s, scanWork checks rows intersects parallel threads = .ok s ∧
      (s.items rows keys).flatten = (List.range rows).map .row := by
  obtain ⟨many, hmany⟩ : ∃ many, many =
      if threads = 0 then if rows ≤ groupRows ∧ ¬ intersects then 1 else parallel
      else threads := ⟨_, rfl⟩
  have hfit : max many 1 * 32 < 2 ^ 64 := by
    rw [hmany]
    split_ifs <;> omega
  obtain ⟨ms, hms, htiles⟩ := makeMorsels_tiles checks (by omega) hfit hrows
  refine ⟨⟨.scan, ms, [], [], [], many⟩, ?_, ?_⟩
  · rw [scanWork, ← hmany, hms]
    rfl
  · show (ms.map fun m => (stretch (List.range rows) m).map Item.row).flatten = _
    rw [← List.flatMap_def, ← List.map_flatMap, htiles.flatMap_stretch]
    have hwhole := stretch_whole (List.range rows)
    rw [List.length_range] at hwhole
    rw [hwhole]

/-- The neighbours of a sought seed, each once and in order, or the seed itself. -/
theorem seekWork_covers (snap : Snapshot) (hop : Option Hop) {parallel threads key : ℕ}
    (hparallel : parallel * 4 < 2 ^ 64) (hthreads : threads * 4 < 2 ^ 64)
    (hweights : ∀ h ∈ hop, ∀ seed ∈ snap.seekKey key, (snap.weights h seed).sum < 2 ^ 64)
    (rows : ℕ) (keys : List ℕ) :
    ∃ s, seekWork checks snap hop parallel threads key = .ok s ∧
      ((s.items rows keys).flatten = [.seed (snap.seekKey key)] ∨
        ∃ seed, snap.seekKey key = some seed ∧
          (s.items rows keys).flatten = (snap.list seed).map (.neighbour none seed)) := by
  rw [seekWork]
  cases hseed : snap.seekKey key with
  | none => exact ⟨_, rfl, Or.inl rfl⟩
  | some seed =>
      simp only
      by_cases hone : threads = 1
      · rw [if_pos hone]
        exact ⟨_, rfl, Or.inl rfl⟩
      rw [if_neg hone]
      cases hop with
      | none => exact ⟨_, rfl, Or.inl rfl⟩
      | some hop =>
          have hsum := hweights hop rfl seed hseed
          simp only
          rw [word_of_lt hsum]
          show ∃ s, (if (snap.weights hop seed).sum < splitRows then _ else _) = _ ∧ _
          by_cases hsmall : (snap.weights hop seed).sum < splitRows
          · rw [if_pos hsmall]
            exact ⟨_, rfl, Or.inl rfl⟩
          rw [if_neg hsmall]
          obtain ⟨many, hmany⟩ : ∃ many, many = if threads = 0 then parallel else threads :=
            ⟨_, rfl⟩
          rw [← hmany]
          have hfit : many * 4 < 2 ^ 64 := by
            rw [hmany]
            split_ifs
            · exact hparallel
            · exact hthreads
          by_cases hfew : many < 2
          · rw [if_pos hfew]
            exact ⟨_, rfl, Or.inl rfl⟩
          rw [if_neg hfew, word_of_lt hfit]
          show ∃ s, (div (snap.weights hop seed).sum (many * 4) >>= _) = _ ∧ _
          rw [div, if_neg (by omega)]
          have hlen : 0 + (snap.weights hop seed).length = (snap.list seed).length := by
            rw [Snapshot.weights, List.length_map, Nat.zero_add]
          have hsome : 0 < (snap.list seed).length := by
            rw [← hlen, Nat.zero_add]
            apply List.length_pos_of_ne_nil
            intro hnil
            rw [hnil] at hsmall
            exact hsmall (by decide)
          obtain ⟨ms, hms, htiles⟩ := cutFrontier_tiles checks
            (max ((snap.weights hop seed).sum / (many * 4)) 1) 0 0 0 hlen (Nat.le_refl _) hsome
            (by omega)
          refine ⟨⟨.frontier seed hop.level, ms, [], [], [snap.frontierOf hop seed], many⟩, ?_,
            Or.inr ⟨seed, rfl, ?_⟩⟩
          · show (cutFrontier checks _ _ 0 0 0 _ >>= _) = _
            rw [hms]
            rfl
          · show (ms.map fun m => (stretch (snap.list seed) m).map (Item.neighbour none seed)).flatten
              = _
            rw [← List.flatMap_def, ← List.map_flatMap, htiles.flatMap_stretch, stretch_whole]

/-- What a batch comes to, key by key: a key that is cut along its frontier is its
neighbours. -/
def Snapshot.cutItems (snap : Snapshot) (share key : ℕ) : List Item :=
  match snap.seekKey key with
  | some seed =>
      if heavy share (snap.weigh key) then (snap.list seed).map (.neighbour (some key) seed)
      else [.key key]
  | none => [.key key]

theorem heavy_seeded {snap : Snapshot} {share key : ℕ} (h : heavy share (snap.weigh key) = true) :
    ∃ seed, snap.seekKey key = some seed := by
  cases hseed : snap.seekKey key with
  | some seed => exact ⟨seed, rfl⟩
  | none => simp [heavy, Snapshot.weigh, hseed] at h

theorem keys_items {keys : List ℕ} {fronts : List FrontierList} {lo i : ℕ} :
    ((if lo < i then [((lo, i), Part.keys)] else []).flatMap fun c => c.2.items keys fronts c.1) =
      (stretch keys (lo, i)).map .key := by
  by_cases hlt : lo < i
  · rw [if_pos hlt, List.flatMap_cons, List.flatMap_nil, List.append_nil]
    rfl
  · have hnil : stretch keys (lo, i) = [] :=
      List.drop_eq_nil_of_le (Nat.le_trans (List.length_take_le _ _) (Nat.le_of_not_lt hlt))
    rw [if_neg hlt, hnil]
    rfl

theorem stretch_drop {α : Type} {l rest : List α} {i : ℕ} {a : α} (h : l.drop i = a :: rest)
    {lo : ℕ} (hle : lo ≤ i) : stretch l (lo, i + 1) = stretch l (lo, i) ++ [a] := by
  have hlt : i < l.length := by
    by_contra hge
    rw [List.drop_eq_nil_of_le (Nat.le_of_not_lt hge)] at h
    exact nomatch h
  have hget : l[i]? = some a := by
    have hhead := congrArg List.head? h
    rwa [List.head?_drop] at hhead
  have hlo : lo ≤ (l.take i).length := by
    rw [List.length_take]
    omega
  rw [stretch, stretch, List.take_add_one, hget, List.drop_append_of_le_length hlo]
  rfl

theorem cutBatch_covers {snap : Snapshot} (hop : Hop) (share : ℕ) {target : ℕ} {keys : List ℕ}
    (htarget : 0 < target)
    (hlists : ∀ row, (snap.list row).length + target ≤ 2 ^ 64) {ks : List ℕ}
    (i lo acc cut : ℕ)
    (hks : keys.drop i = ks) (hle : lo ≤ i)
    (hfit : acc + ((ks.map snap.weigh).map WeighedKey.weight).sum < 2 ^ 64) :
    ∃ cuts fronts, cutBatch checks snap hop share target i lo acc cut (ks.map snap.weigh) =
        .ok (cuts, fronts) ∧
      ∀ all, all.drop cut = fronts → (cuts.flatMap fun c => c.2.items keys all c.1) =
        (stretch keys (lo, i)).map .key ++ ks.flatMap (snap.cutItems share) := by
  induction ks generalizing i lo acc cut with
  | nil =>
      refine ⟨_, _, rfl, fun all _ => ?_⟩
      rw [keys_items, List.flatMap_nil, List.append_nil]
  | cons k ks ih =>
      have hnext : keys.drop (i + 1) = ks := by
        rw [← List.drop_drop, hks, List.drop_one, List.tail_cons]
      have hpending := stretch_drop hks hle
      rw [List.map_cons, List.map_cons, List.sum_cons] at hfit
      rw [List.map_cons, cutBatch]
      by_cases hheavy : heavy share (snap.weigh k) = true
      · obtain ⟨seed, hseed⟩ := heavy_seeded hheavy
        have hseeded : (snap.weigh k).seeded = some seed := hseed
        obtain ⟨slices, hslices, htiles⟩ := cutSteps_tiles checks
          (snap.list seed).length (snap.list seed).length 0 htarget (hlists seed) (Nat.zero_le _)
          (Nat.le_add_left _ _)
        obtain ⟨rest, fronts, hrest, hitems⟩ :=
          ih (i + 1) (i + 1) 0 (cut + 1) hnext (Nat.le_refl _) (by omega)
        rw [if_pos hheavy, hseeded]
        refine ⟨(if lo < i then [((lo, i), Part.keys)] else []) ++
          slices.map (·, .frontier seed k cut) ++ rest, snap.frontierOf hop seed :: fronts, ?_,
          fun all hall => ?_⟩
        · show (cutSteps checks target (snap.list seed).length (snap.list seed).length 0 >>= _) = _
          rw [hslices]
          show (cutBatch checks snap hop share target (i + 1) (i + 1) 0 (cut + 1) _ >>= _) = _
          rw [hrest]
          rfl
        · have hget : all[cut]? = some (snap.frontierOf hop seed) := by
            have hhead := congrArg List.head? hall
            rwa [List.head?_drop] at hhead
          have hall' : all.drop (cut + 1) = fronts := by
            rw [← List.drop_drop, hall, List.drop_one, List.tail_cons]
          have hslice : (slices.map fun m => (m, Part.frontier seed k cut)).flatMap
              (fun c => c.2.items keys all c.1) =
              (snap.list seed).map (.neighbour (some k) seed) := by
            rw [List.flatMap_map]
            simp only [Part.items, hget, Option.map_some, Option.getD_some]
            rw [← List.map_flatMap]
            show (slices.flatMap (stretch (snap.list seed))).map _ = _
            rw [htiles.flatMap_stretch, stretch_whole]
          rw [List.flatMap_append, List.flatMap_append, keys_items, hslice, hitems all hall',
            stretch_self, List.map_nil, List.nil_append, List.flatMap_cons, List.append_assoc]
          congr 2
          rw [Snapshot.cutItems, hseed]
          exact (if_pos hheavy).symm
      · have hitem : snap.cutItems share k = [.key k] := by
          rw [Snapshot.cutItems]
          cases snap.seekKey k with
          | none => rfl
          | some seed => exact if_neg hheavy
        have hsame : (stretch keys (lo, i + 1)).map Item.key ++
            ks.flatMap (snap.cutItems share) =
            (stretch keys (lo, i)).map .key ++ (k :: ks).flatMap (snap.cutItems share) := by
          rw [hpending, List.map_append, List.append_assoc, List.flatMap_cons, hitem]
          rfl
        rw [if_neg hheavy, word_of_lt (by omega)]
        show ∃ cuts fronts, (if target ≤ acc + (snap.weigh k).weight then
          cutBatch checks snap hop share target (i + 1) (i + 1) 0 cut _ >>= _ else _) = _ ∧ _
        by_cases hfull : target ≤ acc + (snap.weigh k).weight
        · obtain ⟨rest, fronts, hrest, hitems⟩ :=
            ih (i + 1) (i + 1) 0 cut hnext (Nat.le_refl _) (by omega)
          rw [if_pos hfull, hrest]
          refine ⟨((lo, i + 1), .keys) :: rest, fronts, rfl, fun all hall => ?_⟩
          rw [List.flatMap_cons, hitems all hall, stretch_self, List.map_nil, List.nil_append]
          exact hsame
        · rw [if_neg hfull]
          obtain ⟨cuts, fronts, hcuts, hitems⟩ := ih (i + 1) lo
            (acc + (snap.weigh k).weight) cut hnext (Nat.le_trans hle (Nat.le_succ i)) (by omega)
          refine ⟨cuts, fronts, hcuts, fun all hall => ?_⟩
          rw [hitems all hall]
          exact hsame

/-- How heavy a key has to be to be cut along its frontier. -/
def share (snap : Snapshot) (cores : ℕ) (keys : List ℕ) : ℕ :=
  max (((keys.map snap.weigh).map WeighedKey.weight).sum / cores) 1

theorem zip_items (keys : List ℕ) (fronts : List FrontierList) (cuts : List ((ℕ × ℕ) × Part)) :
    (((cuts.map Prod.fst).zip (cuts.map Prod.snd)).map fun m =>
      m.2.items keys fronts m.1).flatten = cuts.flatMap fun c => c.2.items keys fronts c.1 := by
  induction cuts with
  | nil => rfl
  | cons c cuts ih =>
      rw [List.map_cons, List.map_cons, List.zip_cons_cons, List.map_cons, List.flatten_cons, ih]
      rfl

theorem hybridWork_covers {snap : Snapshot} (hop : Hop) {cores : ℕ} {keys : List ℕ}
    (hpos : 0 < cores) (hcores : cores * 4 < 2 ^ 64)
    (hfit : ((keys.map snap.weigh).map WeighedKey.weight).sum < 2 ^ 64)
    (hlists : ∀ row, (snap.list row).length < 2 ^ 60) (rows : ℕ) :
    ∃ r, hybridWork checks snap hop cores keys = .ok r ∧ ∀ s ∈ r,
      (s.items rows keys).flatten = keys.flatMap (snap.cutItems (share snap cores keys)) := by
  rw [hybridWork]
  show ∃ r, (word checks ((keys.map snap.weigh).map WeighedKey.weight).sum >>= _) = _ ∧ _
  rw [word_of_lt hfit]
  show ∃ r, (if ((keys.map snap.weigh).map WeighedKey.weight).sum < splitRows then _ else _) = _ ∧ _
  by_cases hsmall : ((keys.map snap.weigh).map WeighedKey.weight).sum < splitRows
  · rw [if_pos hsmall]
    exact ⟨none, rfl, fun s hs => nomatch hs⟩
  rw [if_neg hsmall, div, if_neg (by omega), word_of_lt hcores]
  show ∃ r, (div _ (cores * 4) >>= _) = _ ∧ _
  rw [div, if_neg (by omega)]
  have htarget : max (((keys.map snap.weigh).map WeighedKey.weight).sum / (cores * 4)) 1 ≤
      2 ^ 62 := by
    have hdiv : ((keys.map snap.weigh).map WeighedKey.weight).sum / (cores * 4) ≤
        ((keys.map snap.weigh).map WeighedKey.weight).sum / 4 :=
      Nat.div_le_div_left (by omega) (by decide)
    omega
  have hroom : ∀ row, (snap.list row).length +
      max (((keys.map snap.weigh).map WeighedKey.weight).sum / (cores * 4)) 1 ≤ 2 ^ 64 := by
    intro row
    have hlist := hlists row
    omega
  have hfit' : 0 + ((keys.map snap.weigh).map WeighedKey.weight).sum < 2 ^ 64 := by
    rwa [Nat.zero_add]
  obtain ⟨cuts, fronts, hcuts, hitems⟩ := cutBatch_covers checks hop
    (share snap cores keys) (Nat.le_max_right _ 1) hroom 0 0 0 0 (List.drop_zero (l := keys))
    (Nat.le_refl 0) hfit'
  show ∃ r, (cutBatch checks snap hop (share snap cores keys) _ 0 0 0 0 (keys.map snap.weigh) >>= _)
    = _ ∧ _
  rw [hcuts]
  show ∃ r, (if cuts.length < 2 then _ else _) = _ ∧ _
  by_cases hfew : cuts.length < 2
  · rw [if_pos hfew]
    exact ⟨none, rfl, fun s hs => nomatch hs⟩
  rw [if_neg hfew]
  refine ⟨_, rfl, fun s hs => ?_⟩
  cases hs
  show ((((cuts.map Prod.fst).zip (cuts.map Prod.snd)).map fun m =>
    m.2.items keys fronts m.1).flatten) = _
  rw [zip_items, hitems fronts (List.drop_zero), stretch_self, List.map_nil, List.nil_append]

theorem plain_covers {threads cores : ℕ} (rows : ℕ) {keys : List ℕ}
    (seeded : List (Option ℕ)) (hkeys : keys.length + groupRows ≤ 2 ^ 64)
    (hcores : cores * 32 < 2 ^ 64) (hthreads : threads * 32 < 2 ^ 64) :
    ∃ s, seeksWork.plain checks threads keys cores seeded = .ok s ∧
      (s.items rows keys).flatten = keys.map .key := by
  obtain ⟨many, hmany⟩ : ∃ many, many =
      if threads = 0 then if keys.length ≤ splitRows then 1 else cores else threads := ⟨_, rfl⟩
  have hfit : max many 1 * 32 < 2 ^ 64 := by
    rw [hmany]
    split_ifs <;> omega
  obtain ⟨ms, hms, htiles⟩ := makeMorsels_tiles checks (by omega) hfit hkeys
  refine ⟨⟨.seeks, ms, [], seeded, [], many⟩, ?_, ?_⟩
  · rw [seeksWork.plain, ← hmany, hms]
    rfl
  · show (ms.map fun m => (stretch keys m).map Item.key).flatten = _
    rw [← List.flatMap_def, ← List.map_flatMap, htiles.flatMap_stretch, stretch_whole]

/-- The keys of a batch, each once and in order, or the neighbours of one that is cut along its
frontier. -/
theorem seeksWork_covers (snap : Snapshot) (hop : Option Hop) {parallel threads : ℕ}
    {keys : List ℕ} (weigh : Bool) (hparallel : parallel * 32 < 2 ^ 64)
    (hthreads : threads * 32 < 2 ^ 64) (hkeys : keys.length + groupRows ≤ 2 ^ 64)
    (hfit : ((keys.map snap.weigh).map WeighedKey.weight).sum < 2 ^ 64)
    (hlists : ∀ row, (snap.list row).length < 2 ^ 60) (rows : ℕ) :
    ∃ s, seeksWork checks snap hop parallel threads keys weigh = .ok s ∧
      ((s.items rows keys).flatten = keys.map .key ∨
        (s.items rows keys).flatten = keys.flatMap (snap.cutItems
          (share snap (if threads = 0 then parallel else threads) keys))) := by
  obtain ⟨cores, hcores⟩ : ∃ cores, cores = if threads = 0 then parallel else threads := ⟨_, rfl⟩
  have hmany : cores * 32 < 2 ^ 64 := by
    rw [hcores]
    split_ifs
    · exact hparallel
    · exact hthreads
  have hshort : ∃ short, seeksWork.isShort checks keys weigh cores = .ok short ∧
      (short = true → 0 < cores) := by
    rw [seeksWork.isShort]
    by_cases hweigh : weigh ∧ 1 < cores ∧ keys ≠ []
    · have hroom : cores * weighKeysPerCore < 2 ^ 64 := by
        rw [weighKeysPerCore]
        omega
      rw [if_pos hweigh, word_of_lt hroom]
      exact ⟨_, rfl, fun _ => Nat.lt_trans Nat.one_pos hweigh.2.1⟩
    · rw [if_neg hweigh]
      exact ⟨false, rfl, fun h => nomatch h⟩
  obtain ⟨short, hshort, hpos⟩ := hshort
  rw [seeksWork, ← hcores]
  show ∃ s, (seeksWork.isShort checks keys weigh cores >>= _) = _ ∧ _
  rw [hshort]
  show ∃ s, (match hop.filter fun hop => short && hop.walksOn with
    | none => seeksWork.plain checks threads keys cores []
    | some hop => hybridWork checks snap hop cores keys >>= fun r => match r with
      | some sched => pure sched
      | none => seeksWork.plain checks threads keys cores (keys.map snap.seekKey)) = _ ∧ _
  cases hfilter : hop.filter fun hop => short && hop.walksOn with
  | none =>
      obtain ⟨s, hs, hitems⟩ := plain_covers checks rows [] hkeys hmany hthreads
      exact ⟨s, hs, Or.inl hitems⟩
  | some hop' =>
      have hwalks := (Option.filter_eq_some_iff.1 hfilter).2
      rw [Bool.and_eq_true] at hwalks
      obtain ⟨r, hr, hitems⟩ := hybridWork_covers checks hop' (hpos hwalks.1)
        (by omega) hfit hlists rows
      simp only
      rw [hr]
      cases r with
      | none =>
          obtain ⟨s, hs, hitems⟩ := plain_covers checks rows (keys.map snap.seekKey) hkeys hmany
            hthreads
          exact ⟨s, hs, Or.inl hitems⟩
      | some s => exact ⟨s, rfl, Or.inr (hitems s rfl)⟩

end

end Zu.Exec
