import Mathlib.Algebra.Group.Int.Defs
import Mathlib.Algebra.Group.Nat.Defs

namespace Width

theorem toUInt64_toNat (x : Int64) : (x.toUInt64.toNat : ℤ) = x.toInt % 2 ^ 64 := by
  have hof : x.toUInt64 = UInt64.ofBitVec (BitVec.ofInt 64 x.toInt) := by
    rw [← Int64.toBitVec_ofInt, Int64.ofInt_toInt]
    rfl
  rw [hof]
  show ((BitVec.ofInt 64 x.toInt).toNat : ℤ) = _
  rw [BitVec.toNat_ofInt]
  omega

/-- Both readings agree on the numbers that are not negative, and on no other. -/
theorem toUInt64_toNat_eq_iff (x : Int64) : (x.toUInt64.toNat : ℤ) = x.toInt ↔ 0 ≤ x.toInt := by
  have hlt := x.toInt_lt
  rw [toUInt64_toNat]
  omega

theorem toUInt8_toNat (n : ℤ) : ((UInt8.ofInt n).toNat : ℤ) = n % 256 := by
  rw [UInt8.ofInt, UInt8.toNat_ofNat']
  omega

theorem toUInt32_toNat (n : ℕ) : (UInt32.ofInt n).toNat = n % 2 ^ 32 := by
  rw [UInt32.ofInt, UInt32.toNat_ofNat']
  omega

/-- A length that goes through an `int` on its way to a `size_t`. -/
theorem sizeOfInt_toNat (n : ℕ) :
    ((Int32.ofInt n).toInt64.toUInt64.toNat : ℤ) = (n : ℤ).bmod (2 ^ 32) % 2 ^ 64 := by
  rw [toUInt64_toNat, Int32.toInt_toInt64, Int32.toInt_ofInt]
  rfl

theorem sizeOfInt_toNat_eq_iff {n : ℕ} (hn : n < 2 ^ 63) :
    (Int32.ofInt n).toInt64.toUInt64.toNat = n ↔ n < 2 ^ 31 := by
  have hsize := sizeOfInt_toNat n
  rw [Int.bmod_def] at hsize
  omega

end Width
