import Mathlib.Data.List.TakeWhile
import Mathlib.Data.Nat.Digits.Lemmas
import Mathlib.Tactic.IntervalCases

/-!
# Decimal texts of integers

The text of an integer as `std::to_string` writes it, and reading one the way `strtol` does: blanks,
a sign, and then digits up to the first byte that is none.
-/

namespace Decimal

def digit (d : Nat) : UInt8 := UInt8.ofNat (48 + d)

def natText (n : Nat) : List UInt8 :=
  if n = 0 then [digit 0] else (Nat.digits 10 n).reverse.map digit

def intText (n : Int) : List UInt8 :=
  if n < 0 then 45 :: natText n.natAbs else natText n.natAbs

def isSpace (b : UInt8) : Bool := b == 32 || (9 ≤ b && b ≤ 13)

def isDigit (b : UInt8) : Bool := 48 ≤ b && b ≤ 57

def digitsValue (ds : List UInt8) : Nat := Nat.ofDigits 10 (ds.reverse.map fun b => b.toNat - 48)

/-- The sign in front of a number, and what follows it. -/
def readSign : List UInt8 → Bool × List UInt8
  | 45 :: s => (true, s)
  | 43 :: s => (false, s)
  | s => (false, s)

/-- The number that a text begins with, if it begins with one. -/
def readInt (s : List UInt8) : Option Int :=
  let (neg, s) := readSign (s.dropWhile isSpace)
  match s.takeWhile isDigit with
  | [] => none
  | d :: ds => some (if neg then -digitsValue (d :: ds) else digitsValue (d :: ds))

/-- What `std::stoi` throws. -/
inductive ConversionError
  | invalidArgument
  | outOfRange
  deriving DecidableEq

/-- `std::stoi`. -/
def stoi (s : List UInt8) : Except ConversionError Int :=
  match readInt s with
  | none => .error .invalidArgument
  | some n => if -2147483648 ≤ n ∧ n ≤ 2147483647 then .ok n else .error .outOfRange

theorem isDigit_digit {d : Nat} (h : d < 10) : isDigit (digit d) = true := by
  interval_cases d <;> rfl

theorem digit_toNat {d : Nat} (h : d < 10) : (digit d).toNat - 48 = d := by
  interval_cases d <;> rfl

theorem natText_isDigit (n : Nat) : ∀ b ∈ natText n, isDigit b = true := by
  intro b hb
  rw [natText] at hb
  split at hb
  · rw [List.mem_singleton.mp hb]
    rfl
  · obtain ⟨d, hd, rfl⟩ := List.mem_map.mp hb
    exact isDigit_digit (Nat.digits_lt_base (by decide) (List.mem_reverse.mp hd))

theorem mem_intText {n : Int} {b : UInt8} (h : b ∈ intText n) : b = 45 ∨ isDigit b = true := by
  rw [intText] at h
  split at h
  · exact (List.mem_cons.mp h).imp_right (natText_isDigit _ b)
  · exact .inr (natText_isDigit _ b h)

theorem natText_ne_nil (n : Nat) : natText n ≠ [] := by
  rw [natText]
  split
  · exact List.cons_ne_nil _ _
  · simpa using Nat.digits_ne_nil_iff_ne_zero.mpr ‹_›

theorem digitsValue_natText (n : Nat) : digitsValue (natText n) = n := by
  rw [natText]
  split
  case isTrue h => rw [h]; rfl
  case isFalse h =>
    rw [digitsValue, ← List.map_reverse, List.reverse_reverse, List.map_map]
    have hmap : (Nat.digits 10 n).map ((fun b : UInt8 => b.toNat - 48) ∘ digit) =
        Nat.digits 10 n := by
      conv_rhs => rw [← List.map_id (Nat.digits 10 n)]
      apply List.map_congr_left
      intro d hd
      exact digit_toNat (Nat.digits_lt_base (by decide) hd)
    rw [hmap, Nat.ofDigits_digits]

/-- A digit is neither a blank nor a sign. -/
theorem isSpace_of_isDigit {b : UInt8} (h : isDigit b = true) : isSpace b = false := by
  simp only [isDigit, Bool.and_eq_true, decide_eq_true_eq, UInt8.le_iff_toNat_le] at h
  have h48 : (48 : UInt8).toNat = 48 := rfl
  have h13 : (13 : UInt8).toNat = 13 := rfl
  have hne : b ≠ 32 := by
    rintro rfl
    exact absurd h (by decide)
  simp only [isSpace, Bool.or_eq_false_iff, beq_eq_false_iff_ne, Bool.and_eq_false_iff,
    decide_eq_false_iff_not, UInt8.le_iff_toNat_le]
  exact ⟨hne, .inr (by omega)⟩

theorem readSign_of_isDigit {b : UInt8} (s : List UInt8) (h : isDigit b = true) :
    readSign (b :: s) = (false, b :: s) := by
  unfold readSign
  split
  · rename_i heq
    cases heq
    exact absurd h (by decide)
  · rename_i heq
    cases heq
    exact absurd h (by decide)
  · rfl

theorem takeWhile_natText (n : Nat) : (natText n).takeWhile isDigit = natText n := by
  apply List.takeWhile_eq_self_iff.mpr
  exact natText_isDigit n

/-- Reading the text of an integer gives the integer. -/
@[simp] theorem readInt_intText (n : Int) : readInt (intText n) = some n := by
  obtain ⟨b, s, hs⟩ := List.exists_cons_of_ne_nil (natText_ne_nil n.natAbs)
  have hb : isDigit b = true := natText_isDigit n.natAbs b (hs ▸ .head s)
  have htake := takeWhile_natText n.natAbs
  have hvalue := digitsValue_natText n.natAbs
  rw [hs] at htake hvalue
  rw [readInt]
  rcases lt_or_ge n 0 with hneg | hpos
  · rw [intText, if_pos hneg, hs, List.dropWhile_cons_of_neg (by decide)]
    simp only [readSign, htake, if_true, hvalue]
    congr 1
    omega
  · rw [intText, if_neg (not_lt.mpr hpos), hs,
      List.dropWhile_cons_of_neg (by simp [isSpace_of_isDigit hb]), readSign_of_isDigit s hb]
    simp only [htake, Bool.false_eq_true, if_false, hvalue]
    congr 1
    omega

theorem stoi_intText {n : Int} (h : -2147483648 ≤ n ∧ n ≤ 2147483647) :
    stoi (intText n) = .ok n := by
  rw [stoi, readInt_intText]
  exact if_pos h

end Decimal
