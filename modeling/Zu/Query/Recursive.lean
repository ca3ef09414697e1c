import Zu.Lib.Bitmap
import Zu.Lib.Checked
import Zu.Lib.Chunks
import Zu.Lib.Workers
import Zu.Query.Csr

/-!
# Recursive breadth-first search

Breadth-first search of one source set, round by round, top-down or bottom-up, and of
sixty-four sources at once, a bit a source. What several threads do in one round is done in
the order of a schedule.
-/

namespace Zu.Query

open Lib Checked

def msbfsLanes : ℕ := 64

def msbfsMinSources : ℕ := msbfsLanes

def denseFraction : ℕ := 16

def minParallelFrontier : ℕ := 4096

def ceilDiv (a b : ℕ) : ℕ := (a + b - 1) / b

/-- The level of a node that is not reached. -/
def unreached : ℕ := 2 ^ 32 - 1

/-! ### Top-down rounds -/

/-- A thread of a top-down round: the targets it has left and the nodes it claimed. -/
structure Expander where
  pending : List ℕ
  found : List ℕ

/-- `expand`: the bit of a target is set and read in one step. -/
def expand : Worker Bitmap Expander where
  step visited k :=
    match k.pending with
    | [] => (visited, k)
    | w :: rest =>
        (visited.insert w, ⟨rest, if visited.test w then k.found else k.found ++ [w]⟩)
  todo _ k := k.pending.length
  step_todo := by
    rintro s ⟨_ | ⟨w, rest⟩, found⟩ h
    · exact absurd h (Nat.lt_irrefl 0)
    · exact Nat.lt_succ_self _
  step_idle := by
    rintro s ⟨_ | ⟨w, rest⟩, found⟩ h
    · rfl
    · exact absurd h (Nat.succ_ne_zero _)
  step_other := fun _ _ _ => Nat.le_refl _

def frontierParts (frontier : List ℕ) (threads : ℕ) : List (List ℕ) :=
  if threads ≤ 1 ∨ frontier.length < minParallelFrontier then [frontier]
  else chunks (ceilDiv frontier.length threads) frontier

def topDownLevel (g : Csr) (frontier : List ℕ) (visited : Bitmap) (threads : ℕ)
    (schedule : List ℕ) : Bitmap × List ℕ :=
  let workers := (frontierParts frontier threads).map fun part => ⟨part.flatMap g.row, []⟩
  let st := expand.work (visited, workers) schedule
  (st.1, st.2.flatMap Expander.found)

/-! ### Bottom-up rounds -/

/-- A thread of a bottom-up round: the nodes it has left, whether it is about to claim the
first of them, and the nodes it claimed. -/
structure Scanner where
  pending : List ℕ
  armed : Bool
  found : List ℕ

/-- `scan`: a node is read as unvisited in one step and claimed in another. -/
def scan (rev : Csr) (bits : Bitmap) : Worker Bitmap Scanner where
  step visited k :=
    match k.pending with
    | [] => (visited, k)
    | w :: rest =>
        if k.armed then (visited.insert w, ⟨rest, false, k.found ++ [w]⟩)
        else if visited.test w then (visited, ⟨rest, false, k.found⟩)
        else if (rev.row w).any bits.test then (visited, ⟨w :: rest, true, k.found⟩)
        else (visited, ⟨rest, false, k.found⟩)
  todo _ k := 2 * k.pending.length - if k.armed then 1 else 0
  step_todo := by
    rintro s ⟨_ | ⟨w, rest⟩, armed, found⟩ h
    · simp at h
    · cases armed with
      | true =>
          simp
          omega
      | false =>
          simp only [Bool.false_eq_true, if_false]
          split
          · simp
          · split
            · simp
            · simp
  step_idle := by
    rintro s ⟨_ | ⟨w, rest⟩, armed, found⟩ h
    · rfl
    · cases armed with
      | true =>
          simp at h
          omega
      | false =>
          simp at h
  step_other := fun _ _ _ => Nat.le_refl _

/-- An addition in a word of thirty-two bits. -/
def add32 (a b : ℕ) : Checked Unit ℕ := if a + b < 2 ^ 32 then .ok (a + b) else .error .panicked

/-- The ranges of nodes of the threads with these numbers. -/
def scanRanges (n per : ℕ) : List ℕ → Checked Unit (List (ℕ × ℕ))
  | [] => .ok []
  | t :: ts =>
      let lo := t % 2 ^ 32 * per
      if 2 ^ 32 ≤ lo ∨ n ≤ lo then scanRanges n per ts
      else do
        let hi ← add32 lo per
        let more ← scanRanges n per ts
        .ok ((lo, min hi n) :: more)

/-- The nodes of each thread, which start a word of the bitmap. -/
def scanParts (n threads : ℕ) : Checked Unit (List (ℕ × ℕ)) :=
  if threads ≤ 1 ∨ n < minParallelFrontier then .ok [(0, n)]
  else scanRanges n (ceilDiv (ceilDiv n threads) 64 * 64 % 2 ^ 32) (List.range threads)

def bottomUpLevel (rev : Csr) (bits visited : Bitmap) (threads : ℕ) (schedule : List ℕ) :
    Checked Unit (Bitmap × List ℕ) := do
  let parts ← scanParts rev.nodeCount threads
  let workers := parts.map fun part => ⟨List.range' part.1 (part.2 - part.1), false, []⟩
  let st := (scan rev bits).work (visited, workers) schedule
  .ok (st.1, st.2.flatMap Scanner.found)

/-! ### The fixpoint -/

/-- What a search has visited, the levels it gave, and the nodes of the last round. -/
structure Bfs where
  visited : Bitmap
  levels : List ℕ
  frontier : List ℕ

/-- A source at level zero, once. -/
def Bfs.claimSource (st : Bfs) (s : ℕ) : Bfs :=
  ⟨st.visited.insert s, if st.visited.test s then st.levels else st.levels.set s 0,
    if st.visited.test s then st.frontier else st.frontier ++ [s]⟩

/-- The search before its first round. -/
def Bfs.start (n : ℕ) (sources : List ℕ) : Bfs :=
  sources.foldl Bfs.claimSource ⟨Bitmap.empty n, List.replicate n unreached, []⟩

/-- The next frontier of a search: bottom-up where it is dense and the reversed rows are at
hand. -/
def nextLevel (g : Csr) (rev : Option Csr) (threads : ℕ) (schedule : List ℕ) (st : Bfs) :
    Checked Unit (Bitmap × List ℕ) :=
  match rev with
  | some rev =>
      if g.nodeCount / denseFraction < st.frontier.length then
        bottomUpLevel rev (st.frontier.foldl Bitmap.insert (Bitmap.empty g.nodeCount)) st.visited
          threads schedule
      else .ok (topDownLevel g st.frontier st.visited threads schedule)
  | none => .ok (topDownLevel g st.frontier st.visited threads schedule)

/-- The rounds that are left, the first of them after `depth` others. -/
def rounds (g : Csr) (rev : Option Csr) (threads : ℕ) (schedules : ℕ → List ℕ) :
    ℕ → ℕ → Bfs → Checked Unit Bfs
  | 0, _, st => .ok st
  | left + 1, depth, st =>
      if st.frontier = [] then .ok st
      else do
        let next ← nextLevel g rev threads (schedules depth) st
        rounds g rev threads schedules left (depth + 1)
          ⟨next.1, next.2.foldl (fun levels w => levels.set w (depth + 1)) st.levels, next.2⟩

/-- `effective_threads`, where `detected` threads run at once. -/
def effectiveThreads (detected threads : ℕ) : ℕ := if 0 < threads then threads else detected

def recursiveBfs (g : Csr) (rev : Option Csr) (sources : List ℕ) (maxHops threads detected : ℕ)
    (schedules : ℕ → List ℕ) : Checked Unit (List ℕ) := do
  let st ← rounds g rev (effectiveThreads detected threads) schedules maxHops 0
    (Bfs.start g.nodeCount sources)
  .ok st.levels

/-! ### Sixty-four sources at once -/

/-- A source, a node and a level. -/
abbrev Event := ℕ × ℕ × ℕ

/-- A mask a node: what each lane has seen, its last round and its next; the nodes of the
last round; and what was emitted. -/
structure Lanes where
  seen : List (BitVec 64)
  frontierMask : List (BitVec 64)
  nextMask : List (BitVec 64)
  active : List ℕ
  events : List Event

def maskAt (masks : List (BitVec 64)) (v : ℕ) : BitVec 64 := masks.getD v 0

def Lanes.claimSource (st : Lanes) (source : ℕ × ℕ) : Lanes :=
  { st with
    active := if maskAt st.frontierMask source.1 = 0 then st.active ++ [source.1] else st.active
    seen := st.seen.modify source.1 (· ||| 1#64 <<< source.2)
    frontierMask := st.frontierMask.modify source.1 (· ||| 1#64 <<< source.2)
    events := st.events ++ [(source.2, source.1, 0)] }

/-- The lanes before their first round. -/
def Lanes.start (n : ℕ) (sources : List ℕ) : Lanes :=
  sources.zipIdx.foldl Lanes.claimSource
    ⟨List.replicate n 0, List.replicate n 0, List.replicate n 0, [], []⟩

/-- The lanes of a mask that are new to a node: the next masks and the nodes that have one. -/
def spreadTo (seen : List (BitVec 64)) (mask : BitVec 64) (next : List (BitVec 64) × List ℕ)
    (w : ℕ) : List (BitVec 64) × List ℕ :=
  let new := mask &&& ~~~(maskAt seen w)
  if new = 0 then next
  else
    (next.1.modify w (· ||| new), if maskAt next.1 w = 0 then next.2 ++ [w] else next.2)

/-- The neighbors of a node of the last round. -/
def spreadFrom (g : Csr) (seen frontierMask : List (BitVec 64)) (next : List (BitVec 64) × List ℕ)
    (v : ℕ) : List (BitVec 64) × List ℕ :=
  (g.row v).foldl (spreadTo seen (maskAt frontierMask v)) next

/-- A node of the next round is seen by its new lanes, and emitted. -/
def Lanes.settle (depth : ℕ) (st : Lanes) (w : ℕ) : Lanes :=
  let new := maskAt st.nextMask w
  { st with
    nextMask := st.nextMask.set w 0
    seen := st.seen.modify w (· ||| new)
    frontierMask := st.frontierMask.set w new
    events := st.events ++ (lanesOf 64 new).map fun lane => (lane, w, depth) }

def laneRound (g : Csr) (depth : ℕ) (st : Lanes) : Lanes :=
  let next := st.active.foldl (spreadFrom g st.seen st.frontierMask) (st.nextMask, [])
  let cleared := st.active.foldl (fun masks v => masks.set v 0) st.frontierMask
  { next.2.foldl (Lanes.settle depth) { st with nextMask := next.1, frontierMask := cleared } with
    active := next.2 }

/-- The rounds that are left, the first of them after `depth` others. -/
def laneRounds (g : Csr) : ℕ → ℕ → Lanes → Lanes
  | 0, _, st => st
  | left + 1, depth, st =>
      if st.active = [] then st else laneRounds g left (depth + 1) (laneRound g (depth + 1) st)

/-- `multi_source_bfs`, of at most `MSBFS_LANES` sources. -/
def multiSourceBfs (g : Csr) (sources : List ℕ) (maxHops : ℕ) : List Event :=
  (laneRounds g maxHops 0 (Lanes.start g.nodeCount sources)).events

/-! ### Both sides of the switch -/

/-- The events of a batch as they are sent: whenever there are so many, and at the end. -/
def sends (events : List Event) : List (List Event) :=
  asChunks (2 ^ 16) events ++ [events.drop (events.length / 2 ^ 16 * 2 ^ 16)]

def batchSends (g : Csr) (maxHops : ℕ) (b : ℕ) (batch : List ℕ) : List (List Event) :=
  sends ((multiSourceBfs g batch maxHops).map fun e =>
    (b * msbfsLanes % 2 ^ 32 + e.1, e.2.1, e.2.2))

/-- A thread of the morsels: what it has to send of its batch, and whether it has ended. -/
structure Morsel where
  held : List (List Event)
  ended : Bool

theorem sum_drop_le {α : Type*} (f : α → ℕ) (l : List α) (i : ℕ) :
    ((l.drop (i + 1)).map f).sum ≤ ((l.drop i).map f).sum := by
  have hdrop := List.drop_eq_getElem?_toList_append (l := l) (i := i)
  rw [hdrop]
  simp

/-- The threads of the morsels over the cursor and what was received: each takes the next
batch, sends its events, and ends where there is none. -/
def morsels (batches : List (List (List Event))) : Worker (ℕ × List Event) Morsel where
  step s k :=
    if k.ended then (s, k)
    else
      match k.held with
      | chunk :: rest => ((s.1, s.2 ++ chunk), ⟨rest, false⟩)
      | [] =>
          match batches[s.1]? with
          | some batch => ((s.1 + 1, s.2), ⟨batch, false⟩)
          | none => ((s.1 + 1, s.2), ⟨[], true⟩)
  todo s k :=
    if k.ended then 0
    else k.held.length + ((batches.drop s.1).map fun batch => batch.length + 1).sum + 1
  step_todo := by
    rintro ⟨cursor, received⟩ ⟨held, _ | _⟩ h
    · cases held with
      | cons chunk rest => simp
      | nil =>
          cases hb : batches[cursor]? with
          | none => simp
          | some batch =>
              have hdrop := List.drop_eq_getElem?_toList_append (l := batches) (i := cursor)
              rw [hb] at hdrop
              simp [hdrop]
    · simp at h
  step_idle := by
    rintro ⟨cursor, received⟩ ⟨held, _ | _⟩ h
    · simp at h
    · rfl
  step_other := by
    rintro ⟨cursor, received⟩ ⟨held, _ | _⟩ j
    · cases held with
      | cons chunk rest => exact Nat.le_refl _
      | nil =>
          have hsum := sum_drop_le (fun batch : List (List Event) => batch.length + 1) batches cursor
          cases hb : batches[cursor]? with
          | none =>
              simp only [Bool.false_eq_true, if_false]
              split
              · exact Nat.le_refl _
              · omega
          | some batch =>
              simp only [Bool.false_eq_true, if_false]
              split
              · exact Nat.le_refl _
              · omega
    · exact Nat.le_refl _

def multiSourceMorsels (g : Csr) (sources : List ℕ) (maxHops threads detected : ℕ)
    (schedule : List ℕ) : Checked Unit (List Event) := do
  let threads := effectiveThreads detected threads
  let batches := (chunks msbfsLanes sources).zipIdx.map fun b => batchSends g maxHops b.2 b.1
  let _ ← word true (threads * 2)
  let workers := List.replicate (min threads batches.length) ⟨[], false⟩
  .ok ((morsels batches).work ((0, []), workers) schedule).1.2

/-- The nodes that were reached, with their levels. -/
def reachedEvents (si : ℕ) (levels : List ℕ) : List Event :=
  (levels.zipIdx.filter fun l => l.1 ≠ unreached).map fun l => (si % 2 ^ 32, l.2, l.1)

def oneBfsPerSource (g : Csr) (rev : Option Csr) (maxHops threads detected : ℕ)
    (schedules : ℕ → ℕ → List ℕ) : List (ℕ × ℕ) → Checked Unit (List Event)
  | [] => .ok []
  | (s, si) :: sources => do
      let levels ← recursiveBfs g rev [s] maxHops threads detected (schedules si)
      let more ← oneBfsPerSource g rev maxHops threads detected schedules sources
      .ok (reachedEvents si levels ++ more)

def multiSourcePays (sources : ℕ) : Bool := msbfsMinSources ≤ sources

/-- `hybrid_bfs`, with a schedule for every round of every search. -/
def hybridBfs (g : Csr) (rev : Option Csr) (sources : List ℕ) (maxHops threads detected : ℕ)
    (schedules : ℕ → ℕ → List ℕ) : Checked Unit (List Event) :=
  if multiSourcePays sources.length then
    multiSourceMorsels g sources maxHops (effectiveThreads detected threads) detected
      (schedules 0 0)
  else oneBfsPerSource g rev maxHops (effectiveThreads detected threads) detected schedules
    sources.zipIdx

end Zu.Query
