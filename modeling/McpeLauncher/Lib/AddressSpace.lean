import Mathlib.Data.List.GetD

/-!
# Address spaces

What is mapped at each address: nothing, memory without access, or a byte. Mappings replace what is
in their range, and a write is only possible where there are bytes.
-/

inductive Cell
  | unmapped
  | reserved
  | byte (b : UInt8)
  deriving DecidableEq

def Cell.isByte : Cell → Bool
  | byte _ => true
  | _ => false

/-- What can be read. -/
def Cell.byte? : Cell → Option UInt8
  | byte b => some b
  | _ => none

abbrev AddressSpace := Nat → Cell

namespace AddressSpace

/-- The cells of a range, by their distance from its beginning. -/
def fill (s : AddressSpace) (a n : Nat) (f : Nat → Cell) : AddressSpace := fun x =>
  if a ≤ x ∧ x < a + n then f (x - a) else s x

/-- There are bytes in the whole range. -/
def HasBytes (s : AddressSpace) (a n : Nat) : Prop := ∀ i < n, (s (a + i)).isByte = true

instance (s : AddressSpace) (a n : Nat) : Decidable (s.HasBytes a n) :=
  inferInstanceAs (Decidable (∀ i < n, (s (a + i)).isByte = true))

/-- A write, unless it hits something else than bytes. -/
def write (s : AddressSpace) (a : Nat) (bytes : List UInt8) : Option AddressSpace :=
  if s.HasBytes a bytes.length then
    some (s.fill a bytes.length fun i => .byte (bytes.getD i 0))
  else none

variable {s : AddressSpace} {a n x : Nat} {f : Nat → Cell}

theorem fill_add {i : Nat} (h : i < n) : s.fill a n f (a + i) = f i := by
  rw [fill, if_pos ⟨Nat.le_add_right a i, Nat.add_lt_add_left h a⟩, Nat.add_sub_cancel_left]

theorem fill_of_mem (h : a ≤ x) (hx : x < a + n) : s.fill a n f x = f (x - a) := if_pos ⟨h, hx⟩

theorem fill_of_not_mem (h : ¬(a ≤ x ∧ x < a + n)) : s.fill a n f x = s x := if_neg h

theorem write_eq {bytes : List UInt8} (h : s.HasBytes a bytes.length) :
    s.write a bytes = some (s.fill a bytes.length fun i => .byte (bytes.getD i 0)) := if_pos h

/-- Two writes next to each other are one. -/
theorem fill_fill (s : AddressSpace) (a m n : Nat) (f g : Nat → Cell) :
    (s.fill a m f).fill (a + m) n g =
      s.fill a (m + n) fun i => if i < m then f i else g (i - m) := by
  funext x
  by_cases hlow : a ≤ x ∧ x < a + m
  · have hnot : ¬(a + m ≤ x ∧ x < a + m + n) := by omega
    rw [fill_of_not_mem hnot, fill_of_mem hlow.1 hlow.2, fill_of_mem hlow.1 (by omega),
      if_pos (by omega)]
  · by_cases hhigh : a + m ≤ x ∧ x < a + m + n
    · rw [fill_of_mem hhigh.1 hhigh.2, fill_of_mem (by omega) (by omega), if_neg (by omega),
        Nat.sub_sub]
    · rw [fill_of_not_mem hhigh, fill_of_not_mem hlow, fill_of_not_mem (by omega)]

end AddressSpace
