import Mathlib.Algebra.Group.Nat.Defs
import Mathlib.Algebra.Order.Group.Int

/-!
# Signed and unsigned words

A signed word is the unsigned one modulo a power of two, and the same number where both have it.
-/

namespace Words

/-- What fits into a signed word is not changed by it. -/
theorem bmod_eq_self {a : Int} (hle : -2 ^ 63 ≤ a) (hlt : a < 2 ^ 63) : a.bmod (2 ^ 64) = a :=
  Int.bmod_eq_of_le (by omega) (by omega)

theorem toInt_eq_bmod (a : Int64) : a.toInt = (a.toUInt64.toNat : Int).bmod (2 ^ 64) := by
  rw [← Int64.toInt_toBitVec, BitVec.toInt_eq_toNat_bmod, Int64.toNat_toBitVec]

theorem toInt_toInt64 {x : UInt64} (h : x.toNat < 2 ^ 63) : x.toInt64.toInt = x.toNat := by
  rw [toInt_eq_bmod]
  exact bmod_eq_self (by omega) (by rw [UInt64.toUInt64_toInt64]; omega)

theorem toNat_toUInt64 {a : Int64} (h : 0 ≤ a.toInt) : (a.toUInt64.toNat : Int) = a.toInt := by
  have hbmod := toInt_eq_bmod a
  have hlt := a.toUInt64.toNat_lt
  rw [Int.bmod_def] at hbmod
  split at hbmod <;> omega

/-- The lower half of a word. -/
theorem toNat_toUInt32 (a : Int64) : (a.toUInt64.toUInt32.toNat : Int) = a.toInt % 2 ^ 32 := by
  have hnat : a.toUInt64.toUInt32.toNat = a.toUInt64.toNat % 2 ^ 32 := UInt64.toNat_toUInt32 _
  rw [toInt_eq_bmod, Int.bmod_def]
  split <;> omega

end Words
