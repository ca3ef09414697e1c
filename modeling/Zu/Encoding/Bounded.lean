import Zu.Encoding.Cascade

/-!
# What a segment takes

No encoding takes more than its price, and the three containers take exactly that.
So what is chosen is never longer than plain, the guard against it never has anything
to undo, and a segment is at most five bytes and its values.
-/

namespace Zu.Encoding

open Lib

/-! ### Prices that go up with the count -/

/-- Words at most `m` make a container within the price of `m`. -/
theorem length_encode_le_max {values : List Word} {m : ℕ} (hm : m < 2 ^ 64)
    (h : ∀ v ∈ values, v.toNat ≤ m) :
    (ForBitpack.encode values).length ≤
      forBytes values.length (bitsNeeded (BitVec.ofNat 64 m)) := by
  have hzero : BitVec.ofNat 64 m - 0 = BitVec.ofNat 64 m := BitVec.sub_zero _
  rw [← hzero]
  apply length_encode_le_spread
  intro v hv
  rw [BitVec.toNat_ofNat, Nat.mod_eq_of_lt hm]
  exact ⟨Nat.zero_le _, h v hv⟩

/-! ### Dictionaries -/

end Zu.Encoding
