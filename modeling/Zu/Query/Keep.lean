import Zu.Lib.Entry
import Zu.Lib.Least
import Zu.Query.VarLength

/-!
# Which paths are kept

How many of the paths a walk finds it keeps, per endpoint. Two of the rules answer as the walk
runs; the two that go by length hold what they have and throw away as they go, and give it up
at the end, endpoint by endpoint and shortest first.
-/

namespace Zu.Query

open Lib Lib.Walks Lib.Least Std

inductive Keep
  | all
  | first (k : ℕ)
  | least (k : ℕ)
  | leastGroups (k : ℕ)
  deriving DecidableEq, Repr

/-- What a selector asks the walk for. -/
def Keep.of : Option Selector → Keep
  | none => .all
  | some (.any k) => .first k
  | some .anyShortest => .least 1
  | some (.shortest k) => .least k
  | some .allShortest => .leastGroups 1
  | some (.shortestGroup k) => .leastGroups k

/-- A rule that keeps some path. The parser takes no other. -/
def Keep.Some : Keep → Prop
  | .all => True
  | .first k | .least k | .leastGroups k => 0 < k

/-- The order of nodes in a map. -/
abbrev nodeCmp : NodeAt → NodeAt → Ordering := pairCmp compare compare

/-- The paths a walk is keeping. What an endpoint holds is listed by length, and the paths of
one length as they were found: the buckets of its map, one behind the other. -/
structure Paths where
  keep : Keep
  far : List (List Hop)
  counts : ExtTreeMap NodeAt ℕ nodeCmp
  held : ExtTreeMap NodeAt (List (List Hop)) nodeCmp

def Paths.new (keep : Keep) : Paths := ⟨keep, [], ∅, ∅⟩

/-- A path goes into the bucket of its length. -/
def intoBucket (link : List Hop) (held : List (List Hop)) : List (List Hop) :=
  held.takeWhile (fun p => decide (p.length ≤ link.length)) ++
    link :: held.dropWhile (fun p => decide (p.length ≤ link.length))

/-- What an endpoint holds once a path is offered it, of which it holds `k`. -/
def holdLeast (k : ℕ) (link : List Hop) (held : List (List Hop)) : List (List Hop) :=
  if k ≤ held.length then
    match held.getLast? with
    | none => held
    | some longest =>
        if longest.length ≤ link.length then held else intoBucket link held.dropLast
  else intoBucket link held

def lengths (held : List (List Hop)) : Finset ℕ := (held.map List.length).toFinset

/-- What an endpoint holds once a path is offered it, of which it holds those of `k`
lengths. -/
def holdGroups (k : ℕ) (link : List Hop) (held : List (List Hop)) : List (List Hop) :=
  if k ≤ (lengths held).card ∧ link.length ∉ lengths held then
    match held.getLast? with
    | none => held
    | some longest =>
        if longest.length ≤ link.length then held
        else intoBucket link (held.filter fun p => decide (p.length ≠ longest.length))
  else intoBucket link held

def Paths.push (start : NodeAt) (out : Paths) (link : List Hop) : Paths :=
  let node := ended start link
  match out.keep with
  | .all => { out with far := out.far ++ [link] }
  | .first k =>
      if k ≤ out.counts[node]?.getD 0 then out
      else { out with far := out.far ++ [link], counts := entry out.counts node 0 (· + 1) }
  | .least k => { out with held := entry out.held node [] (holdLeast k link) }
  | .leastGroups k => { out with held := entry out.held node [] (holdGroups k link) }

def Paths.finish (out : Paths) : List (List Hop) :=
  out.far ++ out.held.toList.flatMap Prod.snd

/-! ### What a rule asks for -/

/-- How many lengths less than so many hops the paths have. -/
noncomputable def shorter (paths : List Hop → ℕ) (n : ℕ) : ℕ := by
  classical exact ((Finset.range n).filter fun m => ∃ q, 0 < paths q ∧ q.length = m).card

/-- The paths that are kept are as many of those there are as the rule says: all of them, some
`k` of them, `k` of the least length, or every path of the `k` least lengths. A path is there
as often as the hops it takes are. -/
def Keep.Keeps (paths : List Hop → ℕ) (kept : List (List Hop)) : Keep → Prop
  | .all => ∀ p, kept.count p = paths p
  | .first k => (∀ p, kept.count p ≤ paths p) ∧ kept.length ≤ k ∧
      (kept.length < k → ∀ p, kept.count p = paths p)
  | .least k => (∀ p, kept.count p ≤ paths p) ∧ kept.length ≤ k ∧
      (kept.length < k → ∀ p, kept.count p = paths p) ∧
      ∀ p ∈ kept, ∀ q, kept.count q < paths q → p.length ≤ q.length
  | .leastGroups k => ∀ p, kept.count p = if shorter paths p.length < k then paths p else 0

/-! ### What an endpoint holds -/

/-- Shortest first. -/
abbrev ByLength (held : List (List Hop)) : Prop := held.Pairwise fun p q => p.length ≤ q.length

theorem perm_intoBucket (link : List Hop) (held : List (List Hop)) :
    (intoBucket link held).Perm (link :: held) := by
  rw [intoBucket]
  apply List.perm_middle.trans
  rw [List.takeWhile_append_dropWhile]

theorem byLength_intoBucket {link : List Hop} {held : List (List Hop)} (h : ByLength held) :
    ByLength (intoBucket link held) := by
  have hparts : ByLength (held.takeWhile (fun p => decide (p.length ≤ link.length)) ++
      held.dropWhile (fun p => decide (p.length ≤ link.length))) := by
    rw [List.takeWhile_append_dropWhile]
    exact h
  obtain ⟨hfront, hback, hcross⟩ := List.pairwise_append.1 hparts
  have hlater : ∀ q ∈ held.dropWhile (fun p => decide (p.length ≤ link.length)),
      link.length ≤ q.length := by
    intro q hq
    cases hdrop : held.dropWhile (fun p => decide (p.length ≤ link.length)) with
    | nil =>
        rw [hdrop] at hq
        exact absurd hq List.not_mem_nil
    | cons p rest =>
        have hp := List.head?_dropWhile_not (fun p => decide (p.length ≤ link.length)) held
        rw [hdrop] at hq hback hp
        have hlt : link.length < p.length := by simpa using hp
        obtain rfl | hmem := List.mem_cons.1 hq
        · exact hlt.le
        · exact hlt.le.trans (List.rel_of_pairwise_cons hback hmem)
  rw [intoBucket]
  apply List.pairwise_append.2
  refine ⟨hfront, List.pairwise_cons.2 ⟨hlater, hback⟩, fun p hp q hq => ?_⟩
  obtain rfl | hmem := List.mem_cons.1 hq
  · simpa using List.mem_takeWhile_imp hp
  · exact hcross p hp q hmem

theorem subperm_of_count {held offered : List (List Hop)}
    (h : ∀ p, held.count p ≤ offered.count p) : held.Subperm offered := by
  apply List.subperm_iff_count.2
  intro p
  convert h p using 2
  all_goals exact lawful_beq_subsingleton _ _

/-- What an endpoint holds of what it was offered, where it holds `k` of the least length. -/
structure HoldsLeast (k : ℕ) (offered held : List (List Hop)) : Prop where
  sorted : ByLength held
  count_le : ∀ p, held.count p ≤ offered.count p
  length : held.length = min k offered.length
  least : ∀ p ∈ held, ∀ q, held.count q < offered.count q → p.length ≤ q.length

theorem HoldsLeast.nil {k : ℕ} : HoldsLeast k [] [] where
  sorted := List.Pairwise.nil
  count_le _ := Nat.le_refl _
  length := (Nat.min_zero k).symm
  least _ hp := absurd hp List.not_mem_nil

theorem HoldsLeast.count_eq {k : ℕ} {offered held : List (List Hop)}
    (h : HoldsLeast k offered held) (hlt : held.length < k) (p : List Hop) :
    held.count p = offered.count p := by
  have hsub : held.Subperm offered := subperm_of_count h.count_le
  have hlen : offered.length ≤ held.length := by
    have hmin := h.length
    omega
  exact (hsub.perm_of_length_le hlen).count_eq p

theorem count_snoc (l : List (List Hop)) (a p : List Hop) :
    (l ++ [a]).count p = l.count p + if a = p then 1 else 0 := by
  rw [List.count_append, List.count_singleton]
  simp

theorem HoldsLeast.push {k : ℕ} {offered held : List (List Hop)} {link : List Hop}
    (h : HoldsLeast k offered held) (hk : 0 < k) :
    HoldsLeast k (offered ++ [link]) (holdLeast k link held) := by
  rw [holdLeast]
  split
  case isFalse hroom =>
    rw [Nat.not_le] at hroom
    have hperm : (intoBucket link held).Perm (offered ++ [link]) := by
      apply (perm_intoBucket link held).trans
      apply List.Perm.trans _ (List.perm_append_singleton link offered).symm
      exact List.Perm.cons link (List.perm_iff_count.2 (h.count_eq hroom))
    have hmin := h.length
    refine ⟨byLength_intoBucket h.sorted, fun p => Nat.le_of_eq (hperm.count_eq p), ?_, ?_⟩
    · rw [hperm.length_eq, List.length_append, List.length_singleton]
      omega
    · intro p _ q hlt
      exact absurd (hperm.count_eq q) (Nat.ne_of_lt hlt)
  case isTrue hfull =>
    have hmin := h.length
    cases hlast : held.getLast? with
    | none =>
        rw [List.getLast?_eq_none_iff] at hlast
        subst hlast
        exact absurd hk (Nat.not_lt.2 hfull)
    | some longest =>
        obtain ⟨rest, rfl⟩ := List.getLast?_eq_some_iff.1 hlast
        have hsize : (rest ++ [longest]).length = rest.length + 1 := List.length_append
        obtain ⟨hsorted, -, hlongest⟩ := List.pairwise_append.1 h.sorted
        have hle : ∀ p ∈ rest ++ [longest], p.length ≤ longest.length := by
          intro p hp
          obtain hmem | hmem := List.mem_append.1 hp
          · exact hlongest p hmem longest (List.mem_singleton_self longest)
          · rw [List.mem_singleton.1 hmem]
        dsimp only
        split
        case isTrue hlonger =>
          refine ⟨h.sorted, fun p => ?_, ?_, fun p hp q hlt => ?_⟩
          · rw [count_snoc offered]
            exact (h.count_le p).trans (Nat.le_add_right _ _)
          · rw [hmin, List.length_append, List.length_singleton]
            omega
          · rw [count_snoc offered] at hlt
            split at hlt
            case isTrue heq =>
              subst heq
              exact (hle p hp).trans hlonger
            case isFalse => exact h.least p hp q hlt
        case isFalse hshorter =>
          rw [Nat.not_le] at hshorter
          rw [List.dropLast_concat]
          have hcount : ∀ p, (intoBucket link rest).count p =
              rest.count p + if link = p then 1 else 0 := by
            intro p
            rw [(perm_intoBucket link rest).count_eq p, List.count_cons]
            simp
          refine ⟨byLength_intoBucket hsorted, fun p => ?_, ?_, fun p hp q hlt => ?_⟩
          · rw [hcount, count_snoc]
            have hgiven := h.count_le p
            rw [count_snoc] at hgiven
            omega
          · rw [(perm_intoBucket link rest).length_eq, List.length_cons, List.length_append,
              List.length_singleton]
            omega
          · have hp' : p = link ∨ p ∈ rest := List.mem_cons.1 ((perm_intoBucket link rest).subset hp)
            have hp_le : p.length ≤ longest.length := by
              obtain rfl | hmem := hp'
              · exact hshorter.le
              · exact hle p (List.mem_append_left _ hmem)
            rw [hcount, count_snoc] at hlt
            by_cases hq : (rest ++ [longest]).count q < offered.count q
            · exact hp_le.trans (h.least longest (by simp) q hq)
            · rw [count_snoc] at hq
              have heq : longest = q := by
                by_contra hne
                rw [if_neg hne] at hq
                omega
              rw [← heq]
              exact hp_le

theorem mem_lengths {held : List (List Hop)} {n : ℕ} :
    n ∈ lengths held ↔ ∃ p ∈ held, p.length = n := by
  rw [lengths, List.mem_toFinset, List.mem_map]

theorem lengths_snoc (offered : List (List Hop)) (link : List Hop) :
    lengths (offered ++ [link]) = insert link.length (lengths offered) := by
  ext n
  rw [Finset.mem_insert, mem_lengths, mem_lengths]
  simp only [List.mem_append, List.mem_singleton]
  constructor
  · rintro ⟨p, hp | rfl, rfl⟩
    · exact Or.inr ⟨p, hp, rfl⟩
    · exact Or.inl rfl
  · rintro (rfl | ⟨p, hp, rfl⟩)
    · exact ⟨link, Or.inr rfl, rfl⟩
    · exact ⟨p, Or.inl hp, rfl⟩

theorem count_eq_zero_of_length {offered : List (List Hop)} {p : List Hop}
    (h : p.length ∉ lengths offered) : offered.count p = 0 :=
  List.count_eq_zero.2 fun hmem => h (mem_lengths.2 ⟨p, hmem, rfl⟩)

/-- What an endpoint holds of what it was offered, where it holds those of the `k` least
lengths. -/
structure HoldsGroups (k : ℕ) (offered held : List (List Hop)) : Prop where
  sorted : ByLength held
  kept : ∀ p, held.count p = if p.length ∈ least k (lengths offered) then offered.count p else 0

theorem HoldsGroups.nil {k : ℕ} : HoldsGroups k [] [] where
  sorted := List.Pairwise.nil
  kept _ := (ite_self 0).symm

theorem HoldsGroups.lengths_eq {k : ℕ} {offered held : List (List Hop)}
    (h : HoldsGroups k offered held) : lengths held = least k (lengths offered) := by
  ext n
  rw [mem_lengths]
  constructor
  · rintro ⟨p, hp, rfl⟩
    have hpos := List.count_pos_iff.2 hp
    rw [h.kept p] at hpos
    by_contra hnot
    rw [if_neg hnot] at hpos
    exact absurd hpos (Nat.lt_irrefl 0)
  · intro hn
    obtain ⟨p, hp, rfl⟩ := mem_lengths.1 (mem_least.1 hn).1
    refine ⟨p, List.count_pos_iff.1 ?_, rfl⟩
    rw [h.kept p, if_pos hn]
    exact List.count_pos_iff.2 hp

/-- A path of a length that is kept, or that there is room for, is kept. -/
theorem HoldsGroups.push_kept {k : ℕ} {offered held : List (List Hop)} {link : List Hop}
    (h : HoldsGroups k offered held) (hroom : (lengths held).card < k ∨ link.length ∈ lengths held)
    (p : List Hop) : (intoBucket link held).count p =
      if p.length ∈ least k (lengths (offered ++ [link])) then (offered ++ [link]).count p else 0 := by
  have hcount : (intoBucket link held).count p = held.count p + if link = p then 1 else 0 := by
    rw [(perm_intoBucket link held).count_eq p, List.count_cons]
    simp
  rw [hcount, h.kept, lengths_snoc, count_snoc]
  rw [h.lengths_eq] at hroom
  by_cases hmem : link.length ∈ least k (lengths offered)
  · rw [Finset.insert_eq_of_mem (mem_least.1 hmem).1]
    split
    · rfl
    case isFalse hnot =>
      rw [if_neg]
      rintro rfl
      exact hnot hmem
  · have hless := hroom.resolve_right hmem
    have hall := least_eq_self_of_card_lt hless
    have hmore : (insert link.length (lengths offered)).card ≤ k := by
      rw [hall] at hless
      exact (Finset.card_insert_le _ _).trans hless
    rw [hall, least_eq_self hmore]
    by_cases hp : p.length ∈ lengths offered
    · rw [if_pos hp, if_pos (Finset.mem_insert_of_mem hp)]
    · rw [if_neg hp, count_eq_zero_of_length hp]
      split
      case isTrue heq =>
        subst heq
        rw [if_pos (Finset.mem_insert_self _ _)]
      case isFalse => simp

/-- A path of a new length, where there are as many lengths as are kept, is kept in place of
those of the longest, or not at all. -/
theorem HoldsGroups.push_full {k : ℕ} {offered held : List (List Hop)}
    {link longest : List Hop} (h : HoldsGroups k offered held)
    (hlongest : longest ∈ held) (hmax : ∀ p ∈ held, p.length ≤ longest.length)
    (hfull : k ≤ (lengths held).card) (hnew : link.length ∉ lengths held) (p : List Hop) :
    (if longest.length ≤ link.length then held
        else intoBucket link (held.filter fun p => decide (p.length ≠ longest.length))).count p =
      if p.length ∈ least k (lengths (offered ++ [link])) then (offered ++ [link]).count p else 0 := by
  rw [h.lengths_eq] at hfull hnew
  have hcard : (least k (lengths offered)).card = k := by
    rw [card_least] at hfull ⊢
    omega
  have hx : longest.length ∈ least k (lengths offered) := by
    rw [← h.lengths_eq]
    exact mem_lengths.2 ⟨longest, hlongest, rfl⟩
  have hle : ∀ n ∈ least k (lengths offered), n ≤ longest.length := by
    intro n hn
    rw [← h.lengths_eq] at hn
    obtain ⟨q, hq, rfl⟩ := mem_lengths.1 hn
    exact hmax q hq
  rw [lengths_snoc, count_snoc]
  split
  case isTrue hlonger =>
    have hsame : least k (insert link.length (lengths offered)) = least k (lengths offered) := by
      by_cases hmem : link.length ∈ lengths offered
      · rw [Finset.insert_eq_of_mem hmem]
      · apply least_insert_greater hmem _ hcard
        intro n hn
        refine Nat.lt_of_le_of_ne ((hle n hn).trans hlonger) ?_
        rintro rfl
        exact hnew hn
    rw [h.kept, hsame]
    split
    case isFalse => rfl
    case isTrue hp =>
      rw [if_neg, Nat.add_zero]
      rintro rfl
      exact hnew hp
  case isFalse hshorter =>
    rw [Nat.not_le] at hshorter
    have hfresh : link.length ∉ lengths offered := by
      intro hmem
      apply hnew
      exact mem_least.2 ⟨hmem, (rank_mono hshorter.le).trans_lt (mem_least.1 hx).2⟩
    rw [(perm_intoBucket link _).count_eq p, List.count_cons,
      least_insert_less hfresh hx hle hshorter hcard]
    simp only [Finset.mem_insert, Finset.mem_erase]
    by_cases heq : link = p
    · subst heq
      have hzero : (held.filter fun p => decide (p.length ≠ longest.length)).count link = 0 := by
        apply List.count_eq_zero.2
        intro hmem
        apply hnew
        rw [← h.lengths_eq]
        exact mem_lengths.2 ⟨link, List.mem_of_mem_filter hmem, rfl⟩
      rw [if_pos (Or.inl rfl), hzero, count_eq_zero_of_length hfresh]
      simp
    · by_cases hp : p.length = longest.length
      · have hzero : (held.filter fun p => decide (p.length ≠ longest.length)).count p = 0 := by
          apply List.count_eq_zero.2
          intro hmem
          simpa [hp] using List.of_mem_filter hmem
        have hnot : ¬ (p.length = link.length ∨
            p.length ≠ longest.length ∧ p.length ∈ least k (lengths offered)) := by
          rintro (hl | ⟨hne, -⟩)
          · exact absurd (hl.symm.trans hp) (Nat.ne_of_lt hshorter)
          · exact hne hp
        rw [hzero, if_neg hnot]
        simp [heq]
      · rw [List.count_filter (by simpa using hp), h.kept]
        by_cases hl : p.length = link.length
        · have hoff : offered.count p = 0 := by
            apply count_eq_zero_of_length
            rw [hl]
            exact hfresh
          simp [hl, hoff, heq]
        · simp [hl, hp, heq]

theorem HoldsGroups.push {k : ℕ} {offered held : List (List Hop)} {link : List Hop}
    (h : HoldsGroups k offered held) (hk : 0 < k) :
    HoldsGroups k (offered ++ [link]) (holdGroups k link held) := by
  rw [holdGroups]
  split
  case isFalse hroom =>
    rw [not_and_or, Nat.not_le, not_not] at hroom
    exact ⟨byLength_intoBucket h.sorted, h.push_kept hroom⟩
  case isTrue hfull =>
    cases hlast : held.getLast? with
    | none =>
        rw [List.getLast?_eq_none_iff] at hlast
        subst hlast
        exact absurd hk (Nat.not_lt.2 hfull.1)
    | some longest =>
        obtain ⟨rest, rfl⟩ := List.getLast?_eq_some_iff.1 hlast
        obtain ⟨-, -, hlongest⟩ := List.pairwise_append.1 h.sorted
        have hmax : ∀ p ∈ rest ++ [longest], p.length ≤ longest.length := by
          intro p hp
          obtain hmem | hmem := List.mem_append.1 hp
          · exact hlongest p hmem longest (List.mem_singleton_self longest)
          · rw [List.mem_singleton.1 hmem]
        have hkept := h.push_full (by simp) hmax hfull.1 hfull.2
        refine ⟨?_, hkept⟩
        dsimp only
        split
        · exact h.sorted
        · exact byLength_intoBucket (h.sorted.filter _)

/-! ### What is given up -/

section

variable {start : NodeAt}

def toNode (start v : NodeAt) (paths : List (List Hop)) : List (List Hop) :=
  paths.filter fun p => decide (ended start p = v)

theorem toNode_append (v : NodeAt) (l m : List (List Hop)) :
    toNode start v (l ++ m) = toNode start v l ++ toNode start v m := List.filter_append l m

theorem toNode_snoc (v : NodeAt) (l : List (List Hop)) (p : List Hop) :
    toNode start v (l ++ [p]) =
      if ended start p = v then toNode start v l ++ [p] else toNode start v l := by
  rw [toNode_append, toNode, toNode, List.filter_cons]
  split <;> simp_all

theorem mem_toNode {v : NodeAt} {l : List (List Hop)} {p : List Hop} :
    p ∈ toNode start v l ↔ p ∈ l ∧ ended start p = v := by
  rw [toNode, List.mem_filter, decide_eq_true_eq]

theorem count_toNode (v : NodeAt) (l : List (List Hop)) (p : List Hop) :
    (toNode start v l).count p = if ended start p = v then l.count p else 0 := by
  split
  case isTrue h => exact List.count_filter (p := fun p => decide (ended start p = v)) (decide_eq_true h)
  case isFalse h => exact List.count_eq_zero.2 fun hmem => h (mem_toNode.1 hmem).2

/-- What the endpoints hold is given up endpoint by endpoint. -/
theorem toNode_held {held : ExtTreeMap NodeAt (List (List Hop)) nodeCmp}
    (h : ∀ v l, held[v]? = some l → ∀ p ∈ l, ended start p = v) (v : NodeAt) :
    toNode start v (held.toList.flatMap Prod.snd) = held[v]?.getD [] := by
  have hends : ∀ e ∈ held.toList, ∀ p ∈ e.2, ended start p = e.1 := by
    intro e he
    exact h e.1 e.2 (ExtTreeMap.mem_toList_iff_getElem?_eq_some.1 he)
  have hapart := ExtTreeMap.distinct_keys_toList (t := held)
  have hlookup : ∀ l, (v, l) ∈ held.toList ↔ held[v]? = some l := fun l =>
    ExtTreeMap.mem_toList_iff_getElem?_eq_some
  cases hv : held[v]? with
  | none =>
      rw [Option.getD_none, toNode, List.filter_eq_nil_iff]
      intro p hp hended
      obtain ⟨e, he, hpe⟩ := List.mem_flatMap.1 hp
      have heq : e.1 = v := (hends e he p hpe).symm.trans (of_decide_eq_true hended)
      obtain ⟨node, l⟩ := e
      subst heq
      rw [(hlookup l).1 he] at hv
      cases hv
  | some l =>
      have hmem := (hlookup l).2 hv
      obtain ⟨front, back, hsplit⟩ := List.append_of_mem hmem
      rw [hsplit] at hends hapart ⊢
      have hnone : ∀ part : List (NodeAt × List (List Hop)),
          (∀ e ∈ part, e.1 ≠ v ∧ ∀ p ∈ e.2, ended start p = e.1) →
          toNode start v (part.flatMap Prod.snd) = [] := by
        intro part hpart
        rw [toNode, List.filter_eq_nil_iff]
        intro p hp hended
        obtain ⟨e, he, hpe⟩ := List.mem_flatMap.1 hp
        exact (hpart e he).1 (((hpart e he).2 p hpe).symm.trans (of_decide_eq_true hended))
      obtain ⟨-, hrest, hcross⟩ := List.pairwise_append.1 hapart
      have hfront : ∀ e ∈ front, e.1 ≠ v := by
        intro e he heq
        apply hcross e he (v, l) List.mem_cons_self
        rw [heq]
        exact ReflCmp.compare_self
      have hback : ∀ e ∈ back, e.1 ≠ v := by
        intro e he heq
        apply List.rel_of_pairwise_cons hrest he
        rw [heq]
        exact ReflCmp.compare_self
      rw [List.flatMap_append, List.flatMap_cons, toNode_append, toNode_append,
        hnone front fun e he => ⟨hfront e he, hends e (List.mem_append_left _ he)⟩,
        hnone back fun e he => ⟨hback e he,
          hends e (List.mem_append_right _ (List.mem_cons_of_mem _ he))⟩,
        List.nil_append, List.append_nil, Option.getD_some, toNode, List.filter_eq_self]
      intro p hp
      exact decide_eq_true (hends (v, l) (List.mem_append_right _ List.mem_cons_self) p hp)

/-- What a rule has of the paths it was offered. -/
inductive Taken (start : NodeAt) (offered : List (List Hop)) : Paths → Prop
  | all : Taken start offered ⟨.all, offered, ∅, ∅⟩
  | first {k : ℕ} {far : List (List Hop)} {counts : ExtTreeMap NodeAt ℕ nodeCmp}
      (hfar : ∀ v, toNode start v far = (toNode start v offered).take k)
      (hcounts : ∀ v, counts[v]?.getD 0 = (toNode start v far).length) :
      Taken start offered ⟨.first k, far, counts, ∅⟩
  | least {k : ℕ} {held : ExtTreeMap NodeAt (List (List Hop)) nodeCmp}
      (h : ∀ v, HoldsLeast k (toNode start v offered) (held[v]?.getD [])) :
      Taken start offered ⟨.least k, [], ∅, held⟩
  | leastGroups {k : ℕ} {held : ExtTreeMap NodeAt (List (List Hop)) nodeCmp}
      (h : ∀ v, HoldsGroups k (toNode start v offered) (held[v]?.getD [])) :
      Taken start offered ⟨.leastGroups k, [], ∅, held⟩

theorem Taken.new (keep : Keep) : Taken start [] (Paths.new keep) := by
  cases keep with
  | all => exact Taken.all
  | first k => exact Taken.first (fun _ => List.take_nil.symm) fun _ => by simp [toNode]
  | least k => exact Taken.least fun _ => HoldsLeast.nil
  | leastGroups k => exact Taken.leastGroups fun _ => HoldsGroups.nil

theorem getD_entry {held : ExtTreeMap NodeAt (List (List Hop)) nodeCmp} (node v : NodeAt)
    (f : List (List Hop) → List (List Hop)) :
    (entry held node [] f)[v]?.getD [] =
      if node = v then f (held[v]?.getD []) else held[v]?.getD [] := by
  split
  case isTrue heq =>
    subst heq
    rw [getElem?_entry_self, Option.getD_some]
  case isFalse hne => rw [getElem?_entry_of_ne _ hne]

theorem Taken.push {offered : List (List Hop)} {out : Paths} (h : Taken start offered out)
    (hkeep : out.keep.Some) (link : List Hop) :
    Taken start (offered ++ [link]) (out.push start link) := by
  cases h with
  | all => exact Taken.all
  | first hfar hcounts =>
      rename_i k far counts
      rw [Paths.push]
      dsimp only
      have hsame : ∀ v, ended start link ≠ v →
          toNode start v (offered ++ [link]) = toNode start v offered := fun v hne => by
        rw [toNode_snoc, if_neg hne]
      split
      case isTrue hfull =>
        apply Taken.first _ hcounts
        intro v
        by_cases hv : ended start link = v
        · subst hv
          rw [hcounts, hfar, List.length_take] at hfull
          rw [hfar, toNode_snoc, if_pos rfl, List.take_append_of_le_length (by omega)]
        · rw [hsame v hv, hfar]
      case isFalse hroom =>
        rw [hcounts, hfar, List.length_take] at hroom
        apply Taken.first
        · intro v
          rw [toNode_snoc, toNode_snoc]
          by_cases hv : ended start link = v
          · subst hv
            rw [if_pos rfl, if_pos rfl, hfar, List.take_of_length_le (by omega),
              List.take_of_length_le (by rw [List.length_append, List.length_singleton]; omega)]
          · rw [if_neg hv, if_neg hv, hfar]
        · intro v
          rw [toNode_snoc]
          by_cases hv : ended start link = v
          · subst hv
            rw [getElem?_entry_self, Option.getD_some, if_pos rfl, hcounts, List.length_append,
              List.length_singleton]
          · rw [getElem?_entry_of_ne _ hv, if_neg hv, hcounts]
  | least h =>
      apply Taken.least
      intro v
      rw [getD_entry, toNode_snoc]
      split
      · exact (h v).push hkeep
      · exact h v
  | leastGroups h =>
      apply Taken.leastGroups
      intro v
      rw [getD_entry, toNode_snoc]
      split
      · exact (h v).push hkeep
      · exact h v

theorem Paths.keep_push (out : Paths) (link : List Hop) : (out.push start link).keep = out.keep := by
  obtain ⟨keep, far, counts, held⟩ := out
  cases keep with
  | all => rfl
  | first k =>
      rw [Paths.push]
      dsimp only
      split <;> rfl
  | least k => rfl
  | leastGroups k => rfl

theorem Taken.foldl {found offered : List (List Hop)} {out : Paths} (h : Taken start offered out)
    (hkeep : out.keep.Some) : Taken start (offered ++ found) (found.foldl (Paths.push start) out) := by
  induction found generalizing offered out with
  | nil =>
      rw [List.append_nil]
      exact h
  | cons link found ih =>
      rw [List.foldl_cons, List.append_cons]
      apply ih (h.push hkeep link)
      rw [Paths.keep_push]
      exact hkeep

theorem Paths.keep_foldl (found : List (List Hop)) (out : Paths) :
    (found.foldl (Paths.push start) out).keep = out.keep := by
  induction found generalizing out with
  | nil => rfl
  | cons link found ih => rw [List.foldl_cons, ih, Paths.keep_push]

/-- The rule that keeps every path gives up what it was offered. -/
theorem Taken.finish_all {offered : List (List Hop)} {out : Paths} (h : Taken start offered out)
    (hkeep : out.keep = .all) : out.finish = offered := by
  have hempty : (∅ : ExtTreeMap NodeAt (List (List Hop)) nodeCmp).toList = [] :=
    ExtTreeMap.toList_eq_nil_iff.2 rfl
  cases h with
  | all => rw [Paths.finish, hempty, List.flatMap_nil, List.append_nil]
  | first => cases hkeep
  | least => cases hkeep
  | leastGroups => cases hkeep

theorem shorter_eq_rank {paths : List Hop → ℕ} {offered : List (List Hop)}
    (h : ∀ p, offered.count p = paths p) (n : ℕ) : shorter paths n = rank (lengths offered) n := by
  classical
  rw [shorter, rank]
  congr 1
  ext m
  rw [Finset.mem_filter, Finset.mem_filter, Finset.mem_range, mem_lengths, and_comm]
  refine and_congr_left fun _ => exists_congr fun q => and_congr_left fun _ => ?_
  rw [← h, List.count_pos_iff]

/-- To each endpoint, the paths a rule gives up are those it is to keep. -/
theorem Taken.keeps {offered : List (List Hop)} {out : Paths} (h : Taken start offered out)
    {v : NodeAt} {paths : List Hop → ℕ} (hpaths : ∀ p, (toNode start v offered).count p = paths p) :
    out.keep.Keeps paths (toNode start v out.finish) := by
  have hempty : (∅ : ExtTreeMap NodeAt (List (List Hop)) nodeCmp).toList = [] :=
    ExtTreeMap.toList_eq_nil_iff.2 rfl
  cases h with
  | all =>
      intro p
      rw [Paths.finish, hempty, List.flatMap_nil, List.append_nil, hpaths]
  | first hfar hcounts =>
      rename_i k far counts
      rw [Paths.finish, hempty, List.flatMap_nil, List.append_nil, hfar]
      refine ⟨fun p => ?_, List.length_take_le _ _, fun hless p => ?_⟩
      · rw [← hpaths]
        exact (List.take_sublist k _).count_le p
      · rw [List.length_take] at hless
        rw [List.take_of_length_le (by omega), hpaths]
  | least h =>
      rename_i k held
      have hheld : ∀ v l, held[v]? = some l → ∀ p ∈ l, ended start p = v := by
        intro v l hl p hp
        have hv := h v
        rw [hl, Option.getD_some] at hv
        have hpos := (List.count_pos_iff.2 hp).trans_le (hv.count_le p)
        exact (mem_toNode.1 (List.count_pos_iff.1 hpos)).2
      rw [Paths.finish, List.nil_append, toNode_held hheld]
      refine ⟨fun p => ?_, ?_, fun hless p => ?_, fun p hp q hlt => ?_⟩
      · rw [← hpaths]
        exact (h v).count_le p
      · rw [(h v).length]
        exact Nat.min_le_left _ _
      · rw [(h v).count_eq hless, hpaths]
      · rw [← hpaths] at hlt
        exact (h v).least p hp q hlt
  | leastGroups h =>
      rename_i k held
      have hheld : ∀ v l, held[v]? = some l → ∀ p ∈ l, ended start p = v := by
        intro v l hl p hp
        have hv := h v
        rw [hl, Option.getD_some] at hv
        have hpos := List.count_pos_iff.2 hp
        rw [hv.kept p] at hpos
        split at hpos
        · exact (mem_toNode.1 (List.count_pos_iff.1 hpos)).2
        · exact absurd hpos (Nat.lt_irrefl 0)
      rw [Paths.finish, List.nil_append, toNode_held hheld]
      intro p
      rw [(h v).kept p, shorter_eq_rank hpaths, ← hpaths]
      by_cases hmem : p.length ∈ lengths (toNode start v offered)
      · simp [mem_least, hmem]
      · rw [count_eq_zero_of_length hmem, ite_self, ite_self]

end

end Zu.Query
