import Mathlib.Algebra.Order.Group.Int
import Mathlib.Tactic.Ring

/-!
# Signed LEB128 numbers

Seven bits a byte, the lowest ones first. All bytes but the last have the highest bit; the next bit
of the last one is the sign.
-/

namespace Leb128

theorem natAbs_ediv_lt {n : Int} (h : ¬(-64 ≤ n ∧ n < 64)) : (n / 128).natAbs < n.natAbs := by
  omega

def encode (n : Int) : List UInt8 :=
  if _ : -64 ≤ n ∧ n < 64 then [UInt8.ofNat (n % 128).toNat]
  else UInt8.ofNat ((n % 128).toNat + 128) :: encode (n / 128)
termination_by n.natAbs
decreasing_by exact natAbs_ediv_lt ‹_›

/-- The number in front of the bytes, and what follows it. -/
def decode : List UInt8 → Option (Int × List UInt8)
  | [] => none
  | b :: rest =>
    if b.toNat < 128 then
      some (if b.toNat < 64 then (b.toNat : Int) else b.toNat - 128, rest)
    else (decode rest).map fun (n, rest) => (b.toNat - 128 + 128 * n, rest)

theorem decode_encode (n : Int) (rest : List UInt8) : decode (encode n ++ rest) = some (n, rest) := by
  induction hn : n.natAbs using Nat.strong_induction_on generalizing n with
  | _ k ih =>
    subst hn
    rw [encode]
    split
    · next hsmall =>
      have hbyte : (UInt8.ofNat (n % 128).toNat).toNat = (n % 128).toNat := by
        rw [UInt8.toNat_ofNat']
        omega
      rw [List.singleton_append, decode, hbyte, if_pos (by omega)]
      refine congrArg some (Prod.ext ?_ rfl)
      split <;> omega
    · next hlarge =>
      have hbyte : (UInt8.ofNat ((n % 128).toNat + 128)).toNat = (n % 128).toNat + 128 := by
        rw [UInt8.toNat_ofNat']
        omega
      rw [List.cons_append, decode, hbyte, if_neg (by omega),
        ih _ (natAbs_ediv_lt hlarge) (n / 128) rfl, Option.map_some]
      refine congrArg some (Prod.ext ?_ rfl)
      show (((n % 128).toNat + 128 : Nat) : Int) - 128 + 128 * (n / 128) = n
      omega

theorem length_lt_of_decode {bytes rest : List UInt8} {n : Int} (h : decode bytes = some (n, rest)) :
    rest.length < bytes.length := by
  induction bytes generalizing n with
  | nil => cases h
  | cons b bytes ih =>
    rw [decode] at h
    split at h
    · cases h
      exact Nat.lt_succ_self _
    · obtain ⟨⟨m, r⟩, hm, heq⟩ := Option.map_eq_some_iff.mp h
      cases heq
      exact Nat.lt_succ_of_lt (ih hm)

theorem encode_ne_nil (n : Int) : encode n ≠ [] := by
  rw [encode]
  split <;> exact List.cons_ne_nil _ _

/-- A number of `7 * k` bits needs `k` bytes. -/
theorem length_encode_le {k : Nat} (hk : 0 < k) {n : Int} (h : -2 ^ (7 * k - 1) ≤ n)
    (h' : n < 2 ^ (7 * k - 1)) : (encode n).length ≤ k := by
  induction k generalizing n with
  | zero => exact absurd hk (Nat.lt_irrefl 0)
  | succ k ih =>
    rw [encode]
    split
    · exact Nat.succ_le_succ (Nat.zero_le k)
    · next hlarge =>
      cases k with
      | zero => exact absurd ⟨h, h'⟩ hlarge
      | succ k =>
        have hpow : (2 : Int) ^ (7 * (k + 1 + 1) - 1) = 128 * 2 ^ (7 * (k + 1) - 1) := by
          rw [show 7 * (k + 1 + 1) - 1 = 7 * (k + 1) - 1 + 7 by omega, pow_add]
          ring
        rw [hpow] at h h'
        exact Nat.succ_le_succ (ih (Nat.succ_pos k) (by omega) (by omega))

end Leb128
