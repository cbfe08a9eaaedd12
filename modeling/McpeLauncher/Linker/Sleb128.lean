import McpeLauncher.Lib.Leb128
import McpeLauncher.Linker.Relr
import Mathlib.Data.Nat.Bitwise

/-!
# Numbers of packed relocations

`sleb128_decoder` takes signed LEB128 numbers from the bytes of a library, in words of the library's
class.
-/

namespace McpeLauncher.Linker.Sleb128Decoder
open Elf

variable {c : ElfClass}

/-- The loop of `pop_front`. Without a byte the process is stopped; a shift by the size of the value
or more is not defined. -/
def popLoop : List UInt8 → (value : Addr c) → (shift : Nat) → Option (Addr c × List UInt8)
  | [], _, _ => none
  | byte :: current, value, shift =>
    if shift < 8 * c.word then
      let value := value ||| BitVec.ofNat _ (byte &&& 127).toNat <<< shift
      let shift := shift + 7
      if byte &&& 128 ≠ 0 then popLoop current value shift
      else if shift < 8 * c.word ∧ byte &&& 64 ≠ 0 then
        some (value ||| -(BitVec.ofNat _ 1 <<< shift), current)
      else some (value, current)
    else none

def popFront (bytes : List UInt8) : Option (Addr c × List UInt8) := popLoop bytes 0 0

/-! ## What is popped -/

theorem and_127 (b : UInt8) : (b &&& 127).toNat = b.toNat % 128 := by
  rw [UInt8.toNat_and]
  exact Nat.and_two_pow_sub_one_eq_mod b.toNat 7

theorem and_two_pow_ne_zero (b p : UInt8) {k : Nat} (hp : p.toNat = 2 ^ k) :
    b &&& p ≠ 0 ↔ b.toNat / 2 ^ k % 2 = 1 := by
  rw [ne_eq, ← UInt8.toNat_inj, UInt8.toNat_and, hp, Nat.and_two_pow, Nat.testBit_eq_decide_div_mod_eq]
  by_cases hbit : b.toNat / 2 ^ k % 2 = 1
  · simp [hbit]
  · simp [hbit]

theorem ofNat_shiftLeft (w n shift : Nat) :
    BitVec.ofNat w n <<< shift = BitVec.ofNat w (n * 2 ^ shift) := by
  apply BitVec.eq_of_toNat_eq
  rw [BitVec.toNat_shiftLeft, BitVec.toNat_ofNat, BitVec.toNat_ofNat, Nat.shiftLeft_eq,
    Nat.mod_mul_mod]

/-- More bits above those that are there. -/
theorem or_shiftLeft {v shift : Nat} (hv : v < 2 ^ shift) (w n : Nat) :
    BitVec.ofNat w v ||| BitVec.ofNat w n <<< shift = BitVec.ofNat w (v + n * 2 ^ shift) := by
  rw [ofNat_shiftLeft, ← BitVec.ofNat_or, Nat.or_comm, Nat.mul_comm n,
    ← Nat.two_pow_add_eq_or_of_lt hv, Nat.add_comm v]

theorem pow_sub_one_mul {shift w : Nat} (h : shift ≤ w) :
    (2 ^ (w - shift) - 1) * 2 ^ shift = 2 ^ w - 2 ^ shift := by
  rw [Nat.sub_mul, ← pow_add, Nat.sub_add_cancel h, Nat.one_mul]

/-- Ones in all the bits above those that are there. -/
theorem or_neg_shiftLeft {v shift w : Nat} (hv : v < 2 ^ shift) (hshift : shift < w) :
    BitVec.ofNat w v ||| -(BitVec.ofNat w 1 <<< shift) = BitVec.ofInt w (v - 2 ^ shift) := by
  have hlt : 2 ^ shift < 2 ^ w := Nat.pow_lt_pow_right (by decide) hshift
  have hpos : 0 < 2 ^ shift := Nat.two_pow_pos shift
  have hneg : -(BitVec.ofNat w 1 <<< shift) = BitVec.ofNat w (2 ^ (w - shift) - 1) <<< shift := by
    apply BitVec.eq_of_toNat_eq
    rw [ofNat_shiftLeft, ofNat_shiftLeft, pow_sub_one_mul hshift.le, BitVec.toNat_neg, Nat.one_mul,
      BitVec.toNat_ofNat, BitVec.toNat_ofNat, Nat.mod_eq_of_lt hlt]
  have hcast : ((2 ^ w : Nat) : Int) = 2 ^ w := by push_cast; rfl
  have hcast' : ((2 ^ shift : Nat) : Int) = 2 ^ shift := by push_cast; rfl
  apply BitVec.eq_of_toNat_eq
  rw [hneg, or_shiftLeft hv, pow_sub_one_mul hshift.le, BitVec.toNat_ofNat, BitVec.toNat_ofInt,
    Nat.mod_eq_of_lt (by omega), ← Int.add_emod_right, Int.emod_eq_of_lt (by omega) (by omega)]
  omega

/-- Multiples of what does not fit make no difference. -/
theorem ofInt_sub_two_pow {k w : Nat} (h : w ≤ k) (x : Int) :
    BitVec.ofInt w (x - 2 ^ k) = BitVec.ofInt w x := by
  apply BitVec.eq_of_toNat_eq
  rw [BitVec.toNat_ofInt, BitVec.toNat_ofInt]
  obtain ⟨j, rfl⟩ := Nat.exists_eq_add_of_le h
  push_cast
  rw [pow_add, Int.sub_mul_emod_self_left]

/-- The last byte: its sign goes through all the bits above. -/
theorem last_eq {v shift w b : Nat} (hb : b < 128) (hv : v + b * 2 ^ shift < 2 ^ (shift + 7)) :
    (if shift + 7 < w ∧ b / 2 ^ 6 % 2 = 1 then
      BitVec.ofNat w (v + b * 2 ^ shift) ||| -(BitVec.ofNat w 1 <<< (shift + 7))
      else BitVec.ofNat w (v + b * 2 ^ shift)) =
    BitVec.ofInt w (v + (if b < 64 then (b : Int) else b - 128) * 2 ^ shift) := by
  by_cases hsign : b < 64
  · rw [if_neg (by omega), if_pos hsign, ← BitVec.ofInt_natCast]
    push_cast
    rfl
  · have hvalue : (v : Int) + (b - 128) * 2 ^ shift =
        ((v + b * 2 ^ shift : Nat) : Int) - 2 ^ (shift + 7) := by
      rw [pow_add]
      push_cast
      ring
    rw [if_neg hsign, hvalue]
    split
    · next hmore => exact or_neg_shiftLeft hv hmore.1
    · next hmore =>
      rw [ofInt_sub_two_pow (by omega), BitVec.ofInt_natCast]

/-- The loop gives the number that is behind the bits it has already, if it needs no more bytes
than the value has bits for. -/
theorem popLoop_eq {bytes rest : List UInt8} {n : Int}
    (h : Leb128.decode bytes = some (n, rest)) {v shift : Nat} (hv : v < 2 ^ shift)
    (hfit : shift + 7 * (bytes.length - rest.length) < 8 * c.word + 7) :
    popLoop bytes (BitVec.ofNat _ v) shift =
      some (BitVec.ofInt (8 * c.word) (v + n * 2 ^ shift), rest) := by
  induction bytes generalizing v shift n with
  | nil => cases h
  | cons b bytes ih =>
    have hpow : 2 ^ (shift + 7) = 128 * 2 ^ shift := by rw [pow_add]; omega
    have hb := b.toNat_lt
    have hnext : v + b.toNat % 128 * 2 ^ shift < 2 ^ (shift + 7) := by
      have hmul : b.toNat % 128 * 2 ^ shift ≤ 127 * 2 ^ shift := Nat.mul_le_mul_right _ (by omega)
      omega
    have hmore := and_two_pow_ne_zero b 128 (k := 7) rfl
    have hsign := and_two_pow_ne_zero b 64 (k := 6) rfl
    rw [Leb128.decode] at h
    split at h
    · next hlast =>
      obtain ⟨rfl, rfl⟩ := Prod.mk.inj (Option.some.inj h)
      have hshift : shift < 8 * c.word := by
        rw [List.length_cons] at hfit
        omega
      rw [popLoop, if_pos hshift]
      simp only [or_shiftLeft hv, and_127, hmore, hsign]
      rw [if_neg (by omega), ← apply_ite some, ← apply_ite (Prod.mk · bytes)]
      rw [Nat.mod_eq_of_lt hlast] at hnext ⊢
      rw [last_eq hlast hnext]
    · next hcont =>
      obtain ⟨⟨m, r⟩, hm, heq⟩ := Option.map_eq_some_iff.mp h
      cases heq
      have hlength := Leb128.length_lt_of_decode hm
      have hshift : shift < 8 * c.word := by
        rw [List.length_cons] at hfit
        omega
      rw [popLoop, if_pos hshift]
      simp only [or_shiftLeft hv, and_127, hmore]
      rw [if_pos (by omega), ih hm hnext (by rw [List.length_cons] at hfit; omega)]
      have hvalue : ((v + b.toNat % 128 * 2 ^ shift : Nat) : Int) + m * 2 ^ (shift + 7) =
          v + (b.toNat - 128 + 128 * m) * 2 ^ shift := by
        have hlow : ((b.toNat % 128 : Nat) : Int) = b.toNat - 128 := by omega
        rw [Nat.cast_add, Nat.cast_mul, hlow, pow_add]
        push_cast
        ring
      rw [hvalue]

/-- A word of the file as a signed number. -/
def sleb (x : Addr c) : List UInt8 := Leb128.encode x.toInt

/-- The bytes that a word needs at most. -/
def slebMax (c : ElfClass) : Nat := (8 * c.word - 1) / 7 + 1

theorem length_sleb_le (x : Addr c) : (sleb x).length ≤ slebMax c := by
  have hpow : (2 : Int) ^ (8 * c.word - 1) ≤ 2 ^ (7 * slebMax c - 1) := by
    cases c <;> decide
  have hlow := BitVec.le_toInt x
  have hhigh := BitVec.toInt_lt (x := x)
  exact Leb128.length_encode_le (Nat.succ_pos _) ((neg_le_neg hpow).trans hlow) (hhigh.trans_le hpow)

/-- **`pop_front`** gives the words one after the other. -/
theorem popFront_sleb (x : Addr c) (rest : List UInt8) :
    popFront (sleb x ++ rest) = some (x, rest) := by
  have hlength := length_sleb_le x
  have hfit : 7 * slebMax c < 8 * c.word + 7 := by cases c <;> decide
  have hzero : 0 < 2 ^ 0 := Nat.one_pos
  have hbits : 0 + 7 * ((sleb x ++ rest).length - rest.length) < 8 * c.word + 7 := by
    rw [List.length_append, Nat.add_sub_cancel]
    exact Nat.lt_of_le_of_lt (Nat.zero_add _ ▸ Nat.mul_le_mul_left 7 hlength) hfit
  have hloop := popLoop_eq (Leb128.decode_encode x.toInt rest) hzero hbits
  refine hloop.trans ?_
  rw [pow_zero, Int.mul_one, Nat.cast_zero, Int.zero_add, BitVec.ofInt_toInt]

end McpeLauncher.Linker.Sleb128Decoder
