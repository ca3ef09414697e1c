import Zu.Lib.BinarySearch
import Zu.Lib.Checked
import Zu.Lib.Overlap

/-!
# Sorted-set intersection

Two ascending lists are intersected into an output by one of three loops: the merge, the
merge of several lanes at once, or the gallop of the short list through the long one. Each
leaves the common elements at the front of the output.
-/

namespace Zu.Vector

open Lib Checked

/-- A kernel is given what it can answer for: it returns or panics. -/
abbrev Kernel (α : Type) := Checked Empty α

def gallopRatio : ℕ := 32

def splitMin : ℕ := 64

def put (out : List ℕ) (i x : ℕ) : Kernel (List ℕ) :=
  if i < out.length then .ok (out.set i x) else .error .panicked

/-- The cursors of one merge: where it reads in either list and up to where, where its stretch
of the output starts, and where it writes next. -/
structure Lane where
  i : ℕ
  iEnd : ℕ
  j : ℕ
  jEnd : ℕ
  off : ℕ
  n : ℕ

def Lane.active (l : Lane) : Bool := l.i < l.iEnd && l.j < l.jEnd

/-- The cursors after they have read `x` and `y`. -/
def Lane.next (x y : ℕ) (l : Lane) : Lane :=
  { l with
    n := l.n + (decide (x = y)).toNat
    i := l.i + (decide (x ≤ y)).toNat
    j := l.j + (decide (y ≤ x)).toNat }

/-- One step of a merge. The output is written before it is known whether the two match. -/
def Lane.step (a b out : List ℕ) (l : Lane) : Kernel (List ℕ × Lane) := do
  let x ← index a l.i
  let y ← index b l.j
  let out ← put out l.n x
  return (out, l.next x y)

/-- The loop of `merge`. A loop that does not end in its turns has no result. -/
def mergeLoop (a b : List ℕ) : ℕ → List ℕ → Lane → Kernel (List ℕ × Lane)
  | 0, out, l => if l.active then .error .panicked else .ok (out, l)
  | turns + 1, out, l =>
      if l.active then do
        let (out, l) ← l.step a b out
        mergeLoop a b turns out l
      else .ok (out, l)

/-- `merge`. Each turn moves a cursor, so there are no more turns than elements. -/
def merge (a b out : List ℕ) : Kernel (ℕ × List ℕ) := do
  let (out, l) ← mergeLoop a b (a.length + b.length) out ⟨0, a.length, 0, b.length, 0, 0⟩
  return (l.n, out)

/-- Where the segments of the first list are cut. -/
def cutShort (lanes : ℕ) (a : List ℕ) (k : ℕ) : ℕ := a.length * k / lanes

/-- Where the second list is cut for segment `k`. The search looks at the pivot only where
there is something to compare it with. -/
def cutLong (lanes : ℕ) (a b : List ℕ) (k : ℕ) : Kernel ℕ :=
  if k = 0 ∨ b = [] then .ok 0
  else do
    let pivot ← index a (cutShort lanes a k)
    return partitionPoint (· < pivot) b

/-- The lanes in order, from the cuts: a lane's stretch of the output is as long as the
shorter of its two segments. -/
def layLanes (lanes : ℕ) (a b : List ℕ) : ℕ → ℕ → List ℕ → Kernel (List Lane)
  | _, _, [] => .ok []
  | k, off, [j] =>
      .ok [⟨cutShort lanes a k, cutShort lanes a (k + 1), j, b.length, off, off⟩]
  | k, off, j :: jEnd :: cuts => do
      let short ← sub (cutShort lanes a (k + 1)) (cutShort lanes a k)
      let long ← sub jEnd j
      let rest ← layLanes lanes a b (k + 1) (off + min short long) (jEnd :: cuts)
      return ⟨cutShort lanes a k, cutShort lanes a (k + 1), j, jEnd, off, off⟩ :: rest

def stepAll (a b : List ℕ) : List ℕ → List Lane → Kernel (List ℕ × List Lane)
  | out, [] => .ok (out, [])
  | out, l :: ls => do
      let (out, l) ← l.step a b out
      let (out, ls) ← stepAll a b out ls
      return (out, l :: ls)

/-- The lanes step together while all of them are active. -/
def rounds (a b : List ℕ) : ℕ → List ℕ → List Lane → Kernel (List ℕ × List Lane)
  | 0, out, ls => if ls.all Lane.active then .error .panicked else .ok (out, ls)
  | turns + 1, out, ls =>
      if ls.all Lane.active then do
        let (out, ls) ← stepAll a b out ls
        rounds a b turns out ls
      else .ok (out, ls)

/-- What is left of each lane is merged by itself, into what is left of its stretch. -/
def finish (a b : List ℕ) : List ℕ → List Lane → Kernel (List ℕ × List Lane)
  | out, [] => .ok (out, [])
  | out, l :: ls => do
      let cap := (ls.head?.map Lane.off).getD out.length
      let short ← slice a l.i l.iEnd
      let long ← slice b l.j l.jEnd
      let stretch ← slice out l.n cap
      let (found, stretch) ← merge short long stretch
      let (out, ls) ← finish a b (out.take l.n ++ stretch ++ out.drop cap) ls
      return (out, { l with n := l.n + found } :: ls)

def copyWithin (out : List ℕ) (lo hi dest : ℕ) : Kernel (List ℕ) := do
  let part ← slice out lo hi
  if dest + part.length ≤ out.length then
    return out.take dest ++ part ++ out.drop (dest + part.length)
  else .error .panicked

/-- The stretches are moved together, front to back. -/
def compact : List ℕ → ℕ → List Lane → Kernel (ℕ × List ℕ)
  | out, total, [] => .ok (total, out)
  | out, total, l :: ls => do
      let found ← sub l.n l.off
      let out ← copyWithin out l.off l.n total
      compact out (total + found) ls

def splitMerge (lanes : ℕ) (a b out : List ℕ) : Kernel (ℕ × List ℕ) := do
  let cuts ← (List.range lanes).mapM (cutLong lanes a b)
  let ls ← layLanes lanes a b 0 0 cuts
  let (out, ls) ← rounds a b (a.length + b.length) out ls
  let (out, ls) ← finish a b out ls
  match ls with
  | [] => .error .panicked
  | l :: ls => compact out l.n ls

/-- The step is doubled until the window covers `x`. -/
def doubled (long : List ℕ) (x lo : ℕ) : ℕ → ℕ → Kernel ℕ
  | 0, step => if (long[lo + step]?).any (· < x) then .error .panicked else .ok step
  | turns + 1, step =>
      if (long[lo + step]?).any (· < x) then doubled long x lo turns (step * 2) else .ok step

/-- The loop of `gallop_intersect`, from position `lo` of the long list. -/
def gallopFrom (long : List ℕ) : List ℕ → ℕ → ℕ → List ℕ → Kernel (ℕ × List ℕ)
  | [], _, n, out => .ok (n, out)
  | x :: short, lo, n, out => do
      let step ← doubled long x lo long.length 1
      let hi := min (lo + step + 1) long.length
      let window ← slice long lo hi
      match binarySearch (fun y z => decide (y ≤ z)) window x with
      | some pos => do
          let out ← put out n x
          if long.length ≤ lo + pos + 1 then return (n + 1, out)
          else gallopFrom long short (lo + pos + 1) (n + 1) out
      | none =>
          let lo := lo + partitionPoint (· < x) window
          if long.length ≤ lo then return (n, out)
          else gallopFrom long short lo n out

attribute [grind =] gallopFrom

def gallopIntersect (short long out : List ℕ) : Kernel (ℕ × List ℕ) :=
  gallopFrom long short 0 0 out

def intersectSorted (a b out : List ℕ) : Kernel (ℕ × List ℕ) :=
  let (a, b) := if a.length ≤ b.length then (a, b) else (b, a)
  if a = [] then .ok (0, out)
  else if gallopRatio ≤ b.length / a.length then gallopIntersect a b out
  else if 4 * splitMin ≤ a.length then splitMerge 4 a b out
  else if splitMin ≤ a.length then splitMerge 2 a b out
  else merge a b out

end Zu.Vector
