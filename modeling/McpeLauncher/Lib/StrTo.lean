import McpeLauncher.Lib.Decimal

/-!
# `strtol` and `strtoul`

The number that a text begins with, in a base up to 36: blanks, a sign, `0x` in base 16, and digits
as long as there are any. A number that is too large for the type becomes its largest value.
-/

namespace StrTo
open Decimal (isSpace readSign)

/-- What a digit or a letter stands for; 36 for every other character. -/
def digitValue (c : UInt8) : Nat :=
  if 48 ≤ c ∧ c ≤ 57 then c.toNat - 48
  else if 65 ≤ c ∧ c ≤ 90 then c.toNat - 55
  else if 97 ≤ c ∧ c ≤ 122 then c.toNat - 87
  else 36

def isDigit (base : Nat) (c : UInt8) : Bool := digitValue c < base

def ofDigits (base : Nat) (digits : List UInt8) : Nat :=
  digits.foldl (fun n c => n * base + digitValue c) 0

/-- `0x` counts only in front of a digit. -/
def dropHexMark (base : Nat) : List UInt8 → List UInt8
  | 48 :: x :: c :: s =>
    if base = 16 ∧ (x = 120 ∨ x = 88) ∧ isDigit 16 c then c :: s else 48 :: x :: c :: s
  | s => s

/-- A sign, the digits, and how much of the text they take with all that is in front of them. -/
structure Numeral where
  neg : Bool
  digits : List UInt8
  length : Nat
  deriving DecidableEq

def numeral (base : Nat) (s : List UInt8) : Option Numeral :=
  let signed := readSign (s.dropWhile isSpace)
  let body := dropHexMark base signed.2
  let digits := body.takeWhile (isDigit base)
  if digits = [] then none
  else some ⟨signed.1, digits, s.length - body.length + digits.length⟩

/-- The number, and how many characters are in front of where `endptr` is left: none if there is
no number. -/
def strtol (bits base : Nat) (s : List UInt8) : Int × Nat :=
  match numeral base s with
  | none => (0, 0)
  | some n =>
    if n.neg then (max (-2 ^ (bits - 1)) (-(ofDigits base n.digits : Int)), n.length)
    else (min (2 ^ (bits - 1) - 1) (ofDigits base n.digits : Int), n.length)

def strtoul (bits base : Nat) (s : List UInt8) : Nat :=
  match numeral base s with
  | none => 0
  | some n =>
    let value := ofDigits base n.digits
    if 2 ^ bits ≤ value then 2 ^ bits - 1
    else if n.neg then (2 ^ bits - value) % 2 ^ bits
    else value

/-! ## Texts that begin with a digit -/

section

variable {base bits : Nat} {c : UInt8} {s : List UInt8}

theorem digitValue_lt_iff {n : Nat} (hn : n ≤ 36) :
    digitValue c < n → 48 ≤ c.toNat ∧ c.toNat ≤ 57 ∨ 65 ≤ c.toNat ∧ c.toNat ≤ 90 ∨
      97 ≤ c.toNat ∧ c.toNat ≤ 122 := by
  intro h
  unfold digitValue at h
  split at h
  · exact .inl ‹_›
  split at h
  · exact .inr (.inl ‹_›)
  split at h
  · exact .inr (.inr ‹_›)
  · omega

theorem isSpace_of_isDigit (hbase : base ≤ 36) (h : isDigit base c = true) : isSpace c = false := by
  have hc := digitValue_lt_iff hbase (of_decide_eq_true h)
  have h32 : c.toNat ≠ 32 := by omega
  have h13 : ¬c.toNat ≤ 13 := by omega
  rw [isSpace, Bool.or_eq_false_iff, Bool.and_eq_false_iff]
  refine ⟨beq_eq_false_iff_ne.mpr fun he => h32 (congrArg UInt8.toNat he), .inr ?_⟩
  exact decide_eq_false fun hle => h13 (UInt8.le_iff_toNat_le.mp hle)

theorem readSign_of_isDigit (hbase : base ≤ 36) (h : isDigit base c = true) :
    readSign (c :: s) = (false, c :: s) := by
  have hc := digitValue_lt_iff hbase (of_decide_eq_true h)
  unfold readSign
  split
  · rename_i heq
    cases heq
    exact absurd hc (by decide)
  · rename_i heq
    cases heq
    exact absurd hc (by decide)
  · rfl

/-- A text that begins with a digit, and not with `0x`, begins with the number of its first
digits. -/
theorem numeral_of_isDigit (hbase : base ≤ 36) (h : isDigit base c = true)
    (hmark : dropHexMark base (c :: s) = c :: s) :
    numeral base (c :: s) =
      some ⟨false, (c :: s).takeWhile (isDigit base), ((c :: s).takeWhile (isDigit base)).length⟩ := by
  have hblank : (c :: s).dropWhile isSpace = c :: s :=
    List.dropWhile_cons_of_neg (by rw [isSpace_of_isDigit hbase h]; decide)
  have hdigits : (c :: s).takeWhile (isDigit base) ≠ [] := by
    rw [List.takeWhile_cons_of_pos h]
    exact List.cons_ne_nil _ _
  simp only [numeral, hblank, readSign_of_isDigit hbase h, hmark, if_neg hdigits, Nat.sub_self,
    Nat.zero_add]

/-- Without hexadecimal digits there is no `0x`. -/
theorem dropHexMark_of_ne (hbase : base ≠ 16) (s : List UInt8) : dropHexMark base s = s := by
  unfold dropHexMark
  split
  · exact if_neg fun h => hbase h.1
  · rfl

/-- Two hexadecimal digits are not the mark `0x`. -/
theorem dropHexMark_of_isDigit {d : UInt8} (h : isDigit 16 d = true) :
    dropHexMark base (c :: d :: s) = c :: d :: s := by
  unfold dropHexMark
  split
  · rename_i heq
    rw [heq]
    refine if_neg fun hmark => ?_
    cases heq
    obtain rfl | rfl := hmark.2.1 <;> cases h
  · rfl

end

example : strtol 64 10 [32, 45, 49, 50, 67] = (-12, 4) := by decide
example : strtoul 64 16 [70, 51, 48, 70] = 0xf30f := by decide

end StrTo
