import Zu.Lib.Buckets
import Zu.Lib.Bytes

/-!
# The symbol table of a string column

Up to 255 symbols of one to eight bytes. `Index` arranges them for a longest match:
a slot for each byte holds the one-byte symbols, and a chain for each two-byte prefix
holds the rest, longest first. `bestMatch_longest` says that a lookup finds what a scan of
all the symbols finds.
-/

namespace Zu.Encoding

open Lib

namespace Fsst

def maxSymbols : ℕ := 255

def maxSymbolLen : ℕ := 8

/-- `NONE`: no symbol, in a chain link or a one-byte slot. -/
def noSymbol : ℕ := 65535

/-- A list of symbols that codes can stand for. -/
structure Symbols (syms : List Bytes) : Prop where
  count_le : syms.length ≤ maxSymbols
  len_pos : ∀ sym ∈ syms, 1 ≤ sym.length
  len_le : ∀ sym ∈ syms, sym.length ≤ maxSymbolLen

/-- `Index`. The chains are `heads` and `next` of the source. -/
structure Index where
  syms : List Bytes
  single : UInt8 → ℕ
  chains : Buckets ℕ

/-- The chain of a prefix of two bytes. -/
def bucket (bytes : Bytes) : ℕ := (bytes.headD 0).toNat <<< 8 ||| ((bytes.drop 1).headD 0).toNat

namespace Index

/-- The symbols by length, the shortest first; equal lengths keep their order. -/
def order (syms : List Bytes) : List ℕ :=
  (List.range syms.length).insertionSort
    fun i j => (syms.getD i []).length ≤ (syms.getD j []).length

/-- Puts one symbol in its slot or at the front of its chain. -/
def place (x : Index) (i : ℕ) : Index :=
  if (x.syms.getD i []).length = 1 then
    { x with single := Function.update x.single ((x.syms.getD i []).headD 0) i }
  else { x with chains := x.chains.push (bucket (x.syms.getD i [])) i }

def new (syms : List Bytes) : Index :=
  (order syms).foldl place
    { syms, single := fun _ => noSymbol, chains := Buckets.empty noSymbol syms.length }

/-- The code and the length of a symbol that the bytes start with. -/
def startsWith (x : Index) (rest : Bytes) (i : ℕ) : Option (ℕ × ℕ) :=
  if x.syms.getD i [] <+: rest then some (i % 256, (x.syms.getD i []).length) else none

/-- `Index::best_match`: the longest match at `pos`, as a code and a length. A chain
has at most as many links as there are symbols. -/
def bestMatch (x : Index) (bytes : Bytes) (pos : ℕ) : Option (ℕ × ℕ) :=
  let rest := bytes.drop pos
  let long :=
    if 2 ≤ rest.length then
      Buckets.walk noSymbol x.chains.next (x.startsWith rest) x.syms.length
        (x.chains.heads (bucket rest))
    else none
  match long with
  | some m => some m
  | none =>
      if x.single (rest.headD 0) = noSymbol then none
      else some (x.single (rest.headD 0) % 256, 1)

/-! ### What the index holds -/

theorem foldl_place (items : List ℕ) (x : Index) :
    items.foldl place x =
      { syms := x.syms
        single := (items.filter fun i => (x.syms.getD i []).length = 1).foldl
          (fun f i => Function.update f ((x.syms.getD i []).headD 0) i) x.single
        chains := x.chains.fill (fun i => bucket (x.syms.getD i []))
          (items.filter fun i => ¬ (x.syms.getD i []).length = 1) } := by
  induction items generalizing x with
  | nil => rfl
  | cons i items ih =>
      rw [List.foldl_cons, ih, place]
      by_cases hone : (x.syms.getD i []).length = 1
      · rw [if_pos hone, List.filter_cons, if_pos (decide_eq_true hone), List.filter_cons,
          if_neg (by simpa using hone), List.foldl_cons]
      · rw [if_neg hone, List.filter_cons, if_neg (by simpa using hone), List.filter_cons,
          if_pos (decide_eq_true hone), Buckets.fill, Buckets.fill, List.foldl_cons]

theorem mem_order {syms : List Bytes} {i : ℕ} : i ∈ order syms ↔ i < syms.length := by
  rw [order, List.mem_insertionSort, List.mem_range]

theorem nodup_order (syms : List Bytes) : (order syms).Nodup :=
  (List.perm_insertionSort _ _).nodup_iff.2 List.nodup_range

theorem order_sorted (syms : List Bytes) :
    (order syms).Pairwise fun i j => (syms.getD i []).length ≤ (syms.getD j []).length := by
  have htrans : IsTrans ℕ fun i j => (syms.getD i []).length ≤ (syms.getD j []).length :=
    ⟨fun _ _ _ => le_trans⟩
  have htotal : Std.Total fun i j => (syms.getD i []).length ≤ (syms.getD j []).length :=
    ⟨fun _ _ => le_total _ _⟩
  exact List.pairwise_insertionSort _ _

theorem new_syms (syms : List Bytes) : (new syms).syms = syms := by
  rw [new, foldl_place]

/-- The longer symbols of a bucket, longest first. -/
def longer (syms : List Bytes) (k : ℕ) : List ℕ :=
  (((order syms).filter fun i => ¬ (syms.getD i []).length = 1).filter
    fun i => bucket (syms.getD i []) = k).reverse

theorem mem_longer {syms : List Bytes} {k i : ℕ} : i ∈ longer syms k ↔
    i < syms.length ∧ (syms.getD i []).length ≠ 1 ∧ bucket (syms.getD i []) = k := by
  rw [longer, List.mem_reverse, List.mem_filter, List.mem_filter, mem_order, decide_eq_true_iff,
    decide_eq_true_iff, and_assoc]

theorem longer_sorted (syms : List Bytes) (k : ℕ) :
    (longer syms k).Pairwise fun i j => (syms.getD j []).length ≤ (syms.getD i []).length := by
  rw [longer, List.pairwise_reverse]
  exact ((order_sorted syms).filter _).filter _

theorem length_longer_le (syms : List Bytes) (k : ℕ) : (longer syms k).length ≤ syms.length := by
  have horder : (order syms).length = syms.length := by
    rw [order, List.length_insertionSort, List.length_range]
  rw [longer, List.length_reverse, ← horder]
  exact (List.length_filter_le _ _).trans (List.length_filter_le _ _)

theorem linked_new {syms : List Bytes} (h : syms.length ≤ maxSymbols) (k : ℕ) :
    Buckets.Linked noSymbol (new syms).chains.next ((new syms).chains.heads k)
      (longer syms k) := by
  rw [new, foldl_place]
  apply Buckets.linked_fill_empty
  · exact (nodup_order syms).filter _
  · intro i hi
    have hlt := mem_order.1 (List.mem_filter.1 hi).1
    rw [maxSymbols] at h
    rw [noSymbol]
    omega

theorem foldl_update {key : ℕ → UInt8} (items : List ℕ) (f : UInt8 → ℕ) (b : UInt8) :
    (∀ i ∈ items, key i ≠ b) ∧
        items.foldl (fun f i => Function.update f (key i) i) f b = f b ∨
      ∃ i ∈ items, key i = b ∧
        items.foldl (fun f i => Function.update f (key i) i) f b = i := by
  induction items generalizing f with
  | nil => exact Or.inl ⟨fun _ h => absurd h List.not_mem_nil, rfl⟩
  | cons i items ih =>
      rw [List.foldl_cons]
      rcases ih (Function.update f (key i) i) with ⟨hnone, hsame⟩ | ⟨j, hj, hkey, hsame⟩
      · by_cases hi : key i = b
        · refine Or.inr ⟨i, List.mem_cons_self, hi, ?_⟩
          rw [hsame, ← hi, Function.update_self]
        · refine Or.inl ⟨?_, ?_⟩
          · intro j hj
            rcases List.mem_cons.1 hj with rfl | hj
            · exact hi
            · exact hnone j hj
          · rw [hsame, Function.update_of_ne (Ne.symm hi)]
      · exact Or.inr ⟨j, List.mem_cons_of_mem i hj, hkey, hsame⟩

theorem single_new {syms : List Bytes} (h : syms.length ≤ maxSymbols) (b : UInt8) :
    ((new syms).single b = noSymbol ∧ [b] ∉ syms) ∨
      ((new syms).single b < maxSymbols ∧ syms[(new syms).single b]? = some [b]) := by
  set ones := (order syms).filter fun i => (syms.getD i []).length = 1 with hones
  have hsingle : (new syms).single = ones.foldl
      (fun f i => Function.update f ((syms.getD i []).headD 0) i) fun _ => noSymbol := by
    rw [new, foldl_place]
  have hone : ∀ i ∈ ones, i < syms.length ∧ syms[i]? = some [(syms.getD i []).headD 0] := by
    intro i hi
    rw [hones, List.mem_filter, mem_order, decide_eq_true_iff] at hi
    obtain ⟨hlt, hlen⟩ := hi
    obtain ⟨c, hc⟩ := List.length_eq_one_iff.1 hlen
    refine ⟨hlt, ?_⟩
    rw [hc, List.headD_cons, ← hc, List.getD_eq_getElem?_getD, List.getElem?_eq_getElem hlt,
      Option.getD_some]
  rw [hsingle]
  rcases @foldl_update (fun i => (syms.getD i []).headD 0) ones (fun _ => noSymbol) b with
    ⟨hnone, hsame⟩ | ⟨i, hi, hkey, hsame⟩
  · refine Or.inl ⟨hsame, fun hmem => ?_⟩
    obtain ⟨i, hlt, hget⟩ := List.mem_iff_getElem.1 hmem
    have hgetD : syms.getD i [] = [b] := by
      rw [List.getD_eq_getElem?_getD, List.getElem?_eq_getElem hlt, Option.getD_some, hget]
    apply hnone i
    · rw [hones, List.mem_filter, mem_order, decide_eq_true_iff, hgetD]
      exact ⟨hlt, rfl⟩
    · rw [hgetD, List.headD_cons]
  · obtain ⟨hlt, hget⟩ := hone i hi
    rw [hsame]
    refine Or.inr ⟨hlt.trans_le h, ?_⟩
    rw [hget, hkey]

/-! ### The longest match -/

theorem getElem?_of_getD {syms : List Bytes} {i : ℕ} (h : i < syms.length) :
    syms[i]? = some (syms.getD i []) := by
  rw [List.getD_eq_getElem?_getD, List.getElem?_eq_getElem h, Option.getD_some]

theorem exists_getD {syms : List Bytes} {sym : Bytes} (h : sym ∈ syms) :
    ∃ i < syms.length, syms.getD i [] = sym := by
  obtain ⟨i, hlt, hget⟩ := List.mem_iff_getElem.1 h
  exact ⟨i, hlt, by rw [List.getD_eq_getElem?_getD, List.getElem?_eq_getElem hlt,
    Option.getD_some, hget]⟩

/-- A symbol of two bytes or more is in the bucket of what starts with it. -/
theorem bucket_eq_of_isPrefix {sym rest : Bytes} (hlen : 2 ≤ sym.length) (h : sym <+: rest) :
    bucket sym = bucket rest := by
  obtain ⟨tail, rfl⟩ := h
  match sym, hlen with
  | a :: b :: sym, _ => rfl

/-- The length of the longest symbol that the bytes start with, from a scan of all the
symbols. -/
def scanAll (syms : List Bytes) (rest : Bytes) : Option ℕ :=
  ((syms.filter fun sym => sym <+: rest).map List.length).max?

/-- A match is a symbol that the bytes start with and none longer is, and there is no
match only where the bytes start with no symbol. -/
def Longest (syms : List Bytes) (rest : Bytes) : Option (ℕ × ℕ) → Prop
  | none => ∀ sym ∈ syms, ¬ sym <+: rest
  | some m => ∃ sym, syms[m.1]? = some sym ∧ sym <+: rest ∧ sym.length = m.2 ∧
      ∀ other ∈ syms, other <+: rest → other.length ≤ m.2

theorem Longest.scan_eq {syms : List Bytes} {rest : Bytes} {m : Option (ℕ × ℕ)}
    (h : Longest syms rest m) : m.map Prod.snd = scanAll syms rest := by
  cases m with
  | none =>
      have hnone : (syms.filter fun sym => sym <+: rest) = [] := by
        apply List.filter_eq_nil_iff.2
        intro sym hsym
        simpa using h sym hsym
      rw [scanAll, hnone]
      rfl
  | some m =>
      obtain ⟨sym, hget, hbegins, hlen, hlongest⟩ := h
      symm
      apply List.max?_eq_some_iff.2
      constructor
      · rw [List.mem_map]
        exact ⟨sym, List.mem_filter.2 ⟨List.mem_of_getElem? hget, decide_eq_true hbegins⟩, hlen⟩
      · intro n hn
        obtain ⟨other, hother, rfl⟩ := List.mem_map.1 hn
        obtain ⟨hmem, hp⟩ := List.mem_filter.1 hother
        exact hlongest other hmem (of_decide_eq_true hp)

/-- What the symbols of two bytes and more come to: the longest match, or none of them
matches. -/
def LongerMatch (syms : List Bytes) (rest : Bytes) : Option (ℕ × ℕ) → Prop
  | none => ∀ sym ∈ syms, sym.length ≠ 1 → ¬ sym <+: rest
  | some m => Longest syms rest (some m)

theorem findSome_longer {syms : List Bytes} (hsyms : Symbols syms) (rest : Bytes) :
    LongerMatch syms rest
      ((longer syms (bucket rest)).findSome? ((new syms).startsWith rest)) := by
  have hstarts : ∀ i, (new syms).startsWith rest i =
      if syms.getD i [] <+: rest then some (i % 256, (syms.getD i []).length) else none := by
    intro i
    rw [startsWith, new_syms]
  have hlong : ∀ sym ∈ syms, sym.length ≠ 1 → 2 ≤ sym.length := by
    intro sym hsym hone
    have hpos := hsyms.len_pos sym hsym
    omega
  cases hm : (longer syms (bucket rest)).findSome? ((new syms).startsWith rest) with
  | none =>
      intro sym hsym hone hbegins
      obtain ⟨i, hlt, rfl⟩ := exists_getD hsym
      have hi := List.findSome?_eq_none_iff.1 hm i
        (mem_longer.2 ⟨hlt, hone, bucket_eq_of_isPrefix (hlong _ hsym hone) hbegins⟩)
      rw [hstarts, if_pos hbegins] at hi
      cases hi
  | some m =>
      obtain ⟨before, i, after, hsplit, hfound, hbefore⟩ := List.findSome?_eq_some_iff.1 hm
      have hmem : i ∈ longer syms (bucket rest) := by
        rw [hsplit]
        simp
      obtain ⟨hlt, hne, -⟩ := mem_longer.1 hmem
      rw [hstarts] at hfound
      split_ifs at hfound with hbegins
      cases hfound
      have hcount := hsyms.count_le
      rw [maxSymbols] at hcount
      have hget := getElem?_of_getD hlt
      refine ⟨syms.getD i [], ?_, hbegins, rfl, ?_⟩
      · rw [Nat.mod_eq_of_lt (by omega), hget]
      · intro other hother hp
        by_cases hone : other.length = 1
        · rw [hone]
          exact hsyms.len_pos _ (List.mem_of_getElem? hget)
        · obtain ⟨j, hj, rfl⟩ := exists_getD hother
          have hmem' := mem_longer.2 ⟨hj, hone, bucket_eq_of_isPrefix (hlong _ hother hone) hp⟩
          rw [hsplit, List.mem_append, List.mem_cons] at hmem'
          rcases hmem' with hmem' | rfl | hmem'
          · have hnone := hbefore j hmem'
            rw [hstarts, if_pos hp] at hnone
            cases hnone
          · exact le_rfl
          · -- the chain has the longer symbols first
            have hsorted := longer_sorted syms (bucket rest)
            rw [hsplit] at hsorted
            exact (List.pairwise_cons.1 (List.pairwise_append.1 hsorted).2.1).1 j hmem'

/-- A lookup finds the longest symbol that the bytes start with. -/
theorem bestMatch_longest {syms : List Bytes} (hsyms : Symbols syms) {bytes : Bytes} {pos : ℕ}
    (hpos : pos < bytes.length) :
    Longest syms (bytes.drop pos) ((new syms).bestMatch bytes pos) := by
  have hcons : bytes.drop pos ≠ [] := by
    rw [Ne, List.drop_eq_nil_iff]
    omega
  obtain ⟨b, tail, hrest⟩ := List.exists_cons_of_ne_nil hcons
  rw [bestMatch, hrest]
  set rest := b :: tail with hrest'
  have hwalk : Buckets.walk noSymbol (new syms).chains.next ((new syms).startsWith rest)
      (new syms).syms.length ((new syms).chains.heads (bucket rest)) =
        (longer syms (bucket rest)).findSome? ((new syms).startsWith rest) := by
    apply Buckets.walk_linked _ (linked_new hsyms.count_le _)
    rw [new_syms]
    exact length_longer_le _ _
  simp only [hwalk]
  -- with one byte left no longer symbol fits, and the chain is not walked
  have hlong : LongerMatch syms rest (if 2 ≤ rest.length then
      (longer syms (bucket rest)).findSome? ((new syms).startsWith rest) else none) := by
    split_ifs with htwo
    · exact findSome_longer hsyms rest
    · intro sym hsym hone hbegins
      have hle := hbegins.length_le
      have hpos := hsyms.len_pos sym hsym
      omega
  generalize (if 2 ≤ rest.length then
      (longer syms (bucket rest)).findSome? ((new syms).startsWith rest) else none) = m at hlong
  cases m with
  | some m => exact hlong
  | none =>
      have hhead : rest.headD 0 = b := rfl
      have hone : ∀ sym ∈ syms, sym <+: rest → sym = [b] := by
        intro sym hsym hbegins
        by_contra hne
        apply hlong sym hsym _ hbegins
        intro hlen
        obtain ⟨c, rfl⟩ := List.length_eq_one_iff.1 hlen
        rw [hrest', List.cons_prefix_cons] at hbegins
        exact hne (by rw [hbegins.1])
      rw [hhead]
      rcases single_new hsyms.count_le b with ⟨hnone, hout⟩ | ⟨hlt, hget⟩
      · rw [if_pos hnone]
        intro sym hsym hbegins
        rw [hone sym hsym hbegins] at hsym
        exact hout hsym
      · rw [maxSymbols] at hlt
        have hne : (new syms).single b ≠ noSymbol := by
          rw [noSymbol]
          omega
        rw [if_neg hne]
        refine ⟨[b], ?_, ?_, rfl, ?_⟩
        · rw [Nat.mod_eq_of_lt (by omega), hget]
        · rw [hrest', List.cons_prefix_cons]
          exact ⟨rfl, List.nil_prefix⟩
        · intro other hother hbegins
          rw [hone other hother hbegins]
          exact le_rfl

end Index

/-! ### Training -/

/-- Credits a candidate with the bytes it would save. -/
def credit (gain : List (Bytes × ℕ)) (c : Bytes) (n : ℕ) : List (Bytes × ℕ) :=
  if gain.any (fun g => g.1 = c) then
    gain.map fun g => if g.1 = c then (c, g.2 + n) else g
  else gain ++ [(c, n)]

/-- The loop of a training round: every match is a candidate, and so is every match
together with the one in front of it. `prev` is where the last match was and how long. -/
def propose (x : Index) (sample : Bytes) :
    ℕ → ℕ → Option (ℕ × ℕ) → List (Bytes × ℕ) → List (Bytes × ℕ)
  | 0, _, _, gain => gain
  | fuel + 1, pos, prev, gain =>
      if pos < sample.length then
        let len := ((x.bestMatch sample pos).map Prod.snd).getD 1
        let gain := credit gain ((sample.drop pos).take len) len
        let gain :=
          match prev with
          | some (start, before) =>
              if before + len ≤ maxSymbolLen then
                credit gain ((sample.drop start).take (pos + len - start)) (before + len)
              else gain
          | none => gain
        propose x sample fuel (pos + len) (some (pos, len)) gain
      else gain

/-- The order of the candidates: what saves more is first, and ties break on the
bytes. -/
def better (a b : Bytes × ℕ) : Bool := decide (b.2 < a.2 ∨ a.2 = b.2 ∧ a.1 ≤ b.1)

/-- One round of `train`: the candidates that would save the most. -/
def trainRound (sample : Bytes) (table : List Bytes) : List Bytes :=
  (((propose (Index.new table) sample sample.length 0 none []).insertionSort
    fun a b => better a b).take maxSymbols).map Prod.fst

def trainRounds : ℕ := 7

def train (sample : Bytes) : List Bytes := (trainRound sample)^[trainRounds] []

def sampleTarget : ℕ := 64 <<< 10

/-- `sample`: evenly spaced pieces of a long buffer. -/
def sample (bytes : Bytes) : Bytes :=
  if bytes.length ≤ sampleTarget then bytes
  else
    (List.range (sampleTarget / 512)).flatMap fun i =>
      (bytes.drop (i * (bytes.length / (sampleTarget / 512)))).take 512

theorem credit_symbols {gain : List (Bytes × ℕ)}
    (h : ∀ g ∈ gain, 1 ≤ g.1.length ∧ g.1.length ≤ maxSymbolLen) {c : Bytes}
    (hc : 1 ≤ c.length ∧ c.length ≤ maxSymbolLen) (n : ℕ) :
    ∀ g ∈ credit gain c n, 1 ≤ g.1.length ∧ g.1.length ≤ maxSymbolLen := by
  intro g hg
  rw [credit] at hg
  split_ifs at hg
  · obtain ⟨g', hg', rfl⟩ := List.mem_map.1 hg
    split_ifs
    · exact hc
    · exact h g' hg'
  · rcases List.mem_append.1 hg with hg | hg
    · exact h g hg
    · rw [List.mem_singleton.1 hg]
      exact hc

/-- How far a match reaches: at least one byte, and not past the input. -/
theorem matched_len {syms : List Bytes} (hsyms : Symbols syms) {bytes : Bytes} {pos : ℕ}
    (hpos : pos < bytes.length) :
    1 ≤ (((Index.new syms).bestMatch bytes pos).map Prod.snd).getD 1 ∧
      (((Index.new syms).bestMatch bytes pos).map Prod.snd).getD 1 ≤ maxSymbolLen ∧
        pos + (((Index.new syms).bestMatch bytes pos).map Prod.snd).getD 1 ≤ bytes.length := by
  have hlongest := Index.bestMatch_longest hsyms hpos
  cases hm : (Index.new syms).bestMatch bytes pos with
  | none =>
      refine ⟨le_rfl, ?_, hpos⟩
      rw [maxSymbolLen]
      exact Nat.le_add_left 1 7
  | some m =>
      rw [hm] at hlongest
      obtain ⟨sym, hget, hbegins, hlen, -⟩ := hlongest
      have hmem := List.mem_of_getElem? hget
      have hfits := hbegins.length_le
      rw [List.length_drop] at hfits
      have hone := hsyms.len_pos sym hmem
      have hlen_le := hsyms.len_le sym hmem
      rw [hlen] at hfits hone hlen_le
      refine ⟨hone, hlen_le, ?_⟩
      change pos + m.2 ≤ bytes.length
      omega

theorem propose_symbols {syms : List Bytes} (hsyms : Symbols syms) (sample : Bytes) (fuel : ℕ)
    {pos : ℕ} {prev : Option (ℕ × ℕ)} {gain : List (Bytes × ℕ)}
    (hprev : ∀ p ∈ prev, p.1 + p.2 = pos)
    (h : ∀ g ∈ gain, 1 ≤ g.1.length ∧ g.1.length ≤ maxSymbolLen) :
    ∀ g ∈ propose (Index.new syms) sample fuel pos prev gain,
      1 ≤ g.1.length ∧ g.1.length ≤ maxSymbolLen := by
  induction fuel generalizing pos prev gain with
  | zero => exact h
  | succ fuel ih =>
      rw [propose]
      split_ifs with hpos
      · obtain ⟨hone, hlen, hfits⟩ := matched_len hsyms hpos
        simp only []
        set len := (((Index.new syms).bestMatch sample pos).map Prod.snd).getD 1
        have hmatch : 1 ≤ ((sample.drop pos).take len).length ∧
            ((sample.drop pos).take len).length ≤ maxSymbolLen := by
          rw [List.length_take, List.length_drop]
          omega
        have hgain := credit_symbols h hmatch len
        apply ih
        · intro p hp
          cases hp
          rfl
        · cases prev with
          | none => exact hgain
          | some p =>
              obtain ⟨start, before⟩ := p
              have hstart : start + before = pos := hprev _ rfl
              simp only []
              split_ifs with hjoin
              · apply credit_symbols hgain
                rw [List.length_take, List.length_drop]
                omega
              · exact hgain
      · exact h

theorem trainRound_symbols (sample : Bytes) {table : List Bytes} (h : Symbols table) :
    Symbols (trainRound sample table) := by
  have hmem : ∀ sym ∈ trainRound sample table, 1 ≤ sym.length ∧ sym.length ≤ maxSymbolLen := by
    intro sym hsym
    obtain ⟨g, hg, rfl⟩ := List.mem_map.1 hsym
    have hin := (List.mem_insertionSort _).1 (List.mem_of_mem_take hg)
    exact propose_symbols h sample _ (by simp) (by simp) g hin
  constructor
  · rw [trainRound, List.length_map, List.length_take]
    exact min_le_left _ _
  · exact fun sym hsym => (hmem sym hsym).1
  · exact fun sym hsym => (hmem sym hsym).2

theorem train_symbols (sample : Bytes) : Symbols (train sample) := by
  have hempty : Symbols [] := ⟨Nat.zero_le _, by simp, by simp⟩
  have hrounds : ∀ n, Symbols ((trainRound sample)^[n] []) := by
    intro n
    induction n with
    | zero => exact hempty
    | succ n ih =>
        rw [Function.iterate_succ_apply']
        exact trainRound_symbols sample ih
  exact hrounds trainRounds

/-- `Table`: a table always holds symbols. -/
structure Table where
  syms : List Bytes
  symbols : Symbols syms

def Table.index (t : Table) : Index := Index.new t.syms

def Table.train (bytes : Bytes) : Table := ⟨Fsst.train (sample bytes), train_symbols _⟩

end Fsst

end Zu.Encoding
