import Zu.Lib.Bytes

/-!
# Readers and the encodings they undo

A reader consumes a prefix of a byte string or fails. `Decodes p d a` says that
`p`, run on the bytes `d` followed by anything, gives `a` and leaves what
follows, so readers compose as encodings append.
-/

namespace Zu.Lib

variable {ε α β : Type}

/-- A reader over the bytes that are left. -/
abbrev Reader (ε α : Type) := StateT Bytes (Except ε) α

/-- `p` reads `d` as `a` and stops at its end. -/
def Decodes (p : Reader ε α) (d : Bytes) (a : α) : Prop :=
  ∀ rest, p (d ++ rest) = .ok (a, rest)

theorem Decodes.pure (a : α) : Decodes (Pure.pure a : Reader ε α) [] a :=
  fun _ => rfl

theorem Decodes.bind {p : Reader ε α} {f : α → Reader ε β} {d e : Bytes}
    {a : α} {b : β} (hp : Decodes p d a) (hf : Decodes (f a) e b) :
    Decodes (p >>= f) (d ++ e) b := by
  intro rest
  change (p ((d ++ e) ++ rest) >>= fun out => f out.1 out.2) = _
  rw [List.append_assoc, hp]
  exact hf rest

/-- The last reader of a block ends where the block does. -/
theorem Decodes.bind_pure {p : Reader ε α} {f : α → β} {d : Bytes} {a : α}
    {b : β} (hp : Decodes p d a) (hb : f a = b) :
    Decodes (p >>= fun a => Pure.pure (f a)) d b := by
  have h : Decodes (p >>= fun a => Pure.pure (f a)) (d ++ []) (f a) :=
    hp.bind (Decodes.pure (f a))
  rwa [List.append_nil, hb] at h

/-- A reader that returned ran its first part to a value. -/
theorem reader_bind_ok {p : Reader ε α} {f : α → Reader ε β} {bs : Bytes} {out : β × Bytes} :
    (p >>= f) bs = .ok out ↔ ∃ a mid, p bs = .ok (a, mid) ∧ f a mid = .ok out := by
  change (p bs >>= fun out => f out.1 out.2) = _ ↔ _
  cases p bs with
  | error e =>
      constructor
      · exact fun h => nomatch h
      · rintro ⟨a, mid, h, -⟩
        exact nomatch h
  | ok out =>
      constructor
      · exact fun h => ⟨out.1, out.2, rfl, h⟩
      · rintro ⟨a, mid, h, hf⟩
        cases h
        exact hf

theorem reader_pure_ok {a : α} {bs : Bytes} {out : α × Bytes} :
    (Pure.pure a : Reader ε α) bs = .ok out ↔ out = (a, bs) := by
  change (Except.ok (a, bs) : Except ε _) = _ ↔ _
  rw [Except.ok.injEq, eq_comm]

theorem reader_throw_ok {e : ε} {bs : Bytes} {out : α × Bytes} :
    (throw e : Reader ε α) bs = .ok out ↔ False := by
  change (Except.error e : Except ε _) = _ ↔ _
  exact iff_of_false (fun h => nomatch h) id

/-- What `p` reads is what `enc` makes of what it gives. -/
def Spells (p : Reader ε α) (enc : α → Bytes) : Prop :=
  ∀ ⦃bs a rest⦄, p bs = .ok (a, rest) → bs = enc a ++ rest

/-- What `p` gives has the property. -/
def Gives (p : Reader ε α) (P : α → Prop) : Prop :=
  ∀ ⦃bs a rest⦄, p bs = .ok (a, rest) → P a

/-- Runs a reader `n` times. -/
def readN (p : Reader ε α) : ℕ → Reader ε (List α)
  | 0 => Pure.pure []
  | n + 1 => do
      let a ← p
      let as ← readN p n
      return a :: as

/-- A reader that undoes `enc` undoes a list of encodings laid end to end. -/
theorem Decodes.readN {p : Reader ε α} {enc : α → Bytes} {as : List α}
    (h : ∀ a ∈ as, Decodes p (enc a) a) :
    Decodes (readN p as.length) (as.flatMap enc) as := by
  induction as with
  | nil => exact Decodes.pure []
  | cons a as ih =>
      have hrest := ih fun b hb => h b (List.mem_cons_of_mem a hb)
      rw [List.flatMap_cons]
      exact (h a List.mem_cons_self).bind (hrest.bind_pure rfl)

theorem length_readN {p : Reader ε α} {n : ℕ} {bs rest : Bytes} {as : List α}
    (h : readN p n bs = .ok (as, rest)) : as.length = n := by
  induction n generalizing bs as rest with
  | zero =>
      cases reader_pure_ok.1 h
      rfl
  | succ n ih =>
      obtain ⟨a, mid, ha, h₁⟩ := reader_bind_ok.1 h
      obtain ⟨as', mid', has, h₂⟩ := reader_bind_ok.1 h₁
      cases reader_pure_ok.1 h₂
      exact congrArg (· + 1) (ih has)

theorem Gives.readN {p : Reader ε α} {P : α → Prop} (h : Gives p P) (n : ℕ) :
    Gives (readN p n) fun as => ∀ a ∈ as, P a := by
  induction n with
  | zero =>
      intro bs as rest hread
      cases reader_pure_ok.1 hread
      exact fun a ha => nomatch ha
  | succ n ih =>
      intro bs as rest hread
      obtain ⟨a, mid, ha, h₁⟩ := reader_bind_ok.1 hread
      obtain ⟨as', mid', has, h₂⟩ := reader_bind_ok.1 h₁
      cases reader_pure_ok.1 h₂
      exact List.forall_mem_cons.2 ⟨h ha, ih has⟩

theorem Spells.readN {p : Reader ε α} {enc : α → Bytes} (h : Spells p enc) (n : ℕ) :
    Spells (readN p n) (List.flatMap enc) := by
  induction n with
  | zero =>
      intro bs as rest hread
      cases reader_pure_ok.1 hread
      rfl
  | succ n ih =>
      intro bs as rest hread
      obtain ⟨a, mid, ha, h₁⟩ := reader_bind_ok.1 hread
      obtain ⟨as', mid', has, h₂⟩ := reader_bind_ok.1 h₁
      cases reader_pure_ok.1 h₂
      rw [h ha, ih has, List.flatMap_cons, List.append_assoc]

/-- The next `n` bytes. -/
def takeBytes (n : ℕ) (err : ε) : Reader ε Bytes := fun bs =>
  if bs.length < n then .error err else .ok (bs.take n, bs.drop n)

theorem decodes_takeBytes {n : ℕ} {d : Bytes} (h : d.length = n) (err : ε) :
    Decodes (takeBytes n err) d d := by
  intro rest
  have hlen : ¬ (d ++ rest).length < n := by
    rw [List.length_append]
    omega
  rw [takeBytes, if_neg hlen, List.take_left' h, List.drop_left' h]

theorem takeBytes_ok {n : ℕ} {err : ε} {bs : Bytes} {out : Bytes × Bytes} :
    (takeBytes n err : Reader ε Bytes) bs = .ok out ↔ n ≤ bs.length ∧ out = (bs.take n, bs.drop n) := by
  rw [takeBytes]
  split
  · next hshort => exact iff_of_false (fun h => nomatch h) fun h => absurd h.1 (Nat.not_le.2 hshort)
  · next hlong =>
      rw [Except.ok.injEq, eq_comm]
      exact (and_iff_right (Nat.not_lt.1 hlong)).symm

/-- Fails when the condition holds. -/
def rejectIf (c : Prop) [Decidable c] (err : ε) : Reader ε Unit :=
  if c then throw err else Pure.pure ()

theorem decodes_rejectIf {c : Prop} [Decidable c] (h : ¬ c) (err : ε) :
    Decodes (rejectIf c err) [] () := by
  rw [rejectIf, if_neg h]
  exact Decodes.pure ()

theorem rejectIf_ok {c : Prop} [Decidable c] {err : ε} {bs : Bytes} {out : Unit × Bytes} :
    rejectIf c err bs = .ok out ↔ ¬ c ∧ out = ((), bs) := by
  rw [rejectIf]
  split
  · next hc => exact iff_of_false reader_throw_ok.1 fun h => h.1 hc
  · next hc => exact reader_pure_ok.trans (and_iff_right hc).symm

/-- `p` fails on what is shorter than `d` and begins it. -/
def Starves (p : Reader ε α) (d : Bytes) : Prop :=
  ∀ k < d.length, ∃ e, p (d.take k) = .error e

theorem starves_takeBytes {n : ℕ} {d : Bytes} (h : d.length = n) (err : ε) :
    Starves (takeBytes n err : Reader ε Bytes) d := by
  intro k hk
  refine ⟨err, if_pos ?_⟩
  rw [List.length_take]
  omega

/-- A reader that goes on starves where either of its parts does. -/
theorem Starves.bind {p : Reader ε α} {f : α → Reader ε β} {d e : Bytes} {a : α}
    (hp : Starves p d) (hd : Decodes p d a) (hf : Starves (f a) e) :
    Starves (p >>= f) (d ++ e) := by
  intro k hk
  by_cases hshort : k < d.length
  · obtain ⟨err, herr⟩ := hp k hshort
    refine ⟨err, ?_⟩
    change (p ((d ++ e).take k) >>= fun out => f out.1 out.2) = _
    rw [List.take_append_of_le_length hshort.le, herr]
    rfl
  · have hle := not_lt.1 hshort
    rw [List.length_append] at hk
    obtain ⟨err, herr⟩ := hf (k - d.length) (by omega)
    refine ⟨err, ?_⟩
    change (p ((d ++ e).take k) >>= fun out => f out.1 out.2) = _
    rw [List.take_append, List.take_of_length_le hle, hd]
    exact herr

/-- The last reader of a block may take nothing. -/
theorem Starves.bind_any {p : Reader ε α} (f : α → Reader ε β) {d : Bytes} (hp : Starves p d) :
    Starves (p >>= f) d := by
  intro k hk
  obtain ⟨err, herr⟩ := hp k hk
  refine ⟨err, ?_⟩
  change (p (d.take k) >>= fun out => f out.1 out.2) = _
  rw [herr]
  rfl

end Zu.Lib
