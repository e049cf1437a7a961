import Mathlib.Algebra.Group.Nat.Defs

/-! # Counters of fixed width

A counter of `w` bits that is only ever counted up and down holds `BitVec.ofNat w n` of the number `n` that it
counts. What changes by as much on both sides keeps this so, and below the wrap the signed value is the number.
-/

namespace LockFreeCore.WrappingCount

variable {w n : ℕ} {total after : BitVec w}

theorem ofNat_succ (n : ℕ) : BitVec.ofNat w (n + 1) = BitVec.ofNat w n + 1 := BitVec.ofNat_add ..

theorem add_one_add (total : BitVec w) (n : ℕ) : total + 1 + BitVec.ofNat w n = total + BitVec.ofNat w (n + 1) := by
  rw [ofNat_succ, BitVec.add_assoc, BitVec.add_comm 1]

/-- What one share grows by, the counter grows by, and so does the sum. -/
theorem eq_ofNat_of_share {before now sum sum' : ℕ}
    (counted : after + BitVec.ofNat w before = BitVec.ofNat w sum + BitVec.ofNat w now)
    (summed : sum' + before = sum + now) : after = BitVec.ofNat w sum' := by
  rw [← BitVec.ofNat_add, ← summed, BitVec.ofNat_add] at counted
  exact (BitVec.add_left_inj _).mp counted

/-- Below the wrap a counter reads as the number it counts. -/
theorem toInt_ofNat (few : 2 * n < 2 ^ w) : (BitVec.ofNat w n).toInt = n := by
  have small : n < 2 ^ w := by omega
  rw [BitVec.toInt_eq_toNat_of_lt, BitVec.toNat_ofNat, Nat.mod_eq_of_lt small]
  rwa [BitVec.toNat_ofNat, Nat.mod_eq_of_lt small]

end LockFreeCore.WrappingCount
