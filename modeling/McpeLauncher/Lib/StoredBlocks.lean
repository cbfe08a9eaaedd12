import Mathlib.Data.List.Basic

/-!
# Stored blocks

The deflate format without compression: the bytes are cut into blocks, and each block follows a
header of five bytes with its length. -/

namespace StoredBlocks

/-- The header of a stored block of so many bytes. -/
def storedHeader (last : Bool) (len : Nat) : List UInt8 :=
  let lo := UInt8.ofNat len
  let hi := UInt8.ofNat (len / 256)
  [if last then 1 else 0, lo, hi, ~~~lo, ~~~hi]

/-- The bytes in blocks of the largest size. -/
def blocks (x : List UInt8) : List (List UInt8) :=
  if x.length ≤ 65535 then [x] else x.take 65535 :: blocks (x.drop 65535)
termination_by x.length
decreasing_by
  rw [List.length_drop]
  omega

/-- The raw deflate stream of stored blocks, each byte with what it decodes to. -/
def stored : List (List UInt8) → List (UInt8 × List UInt8)
  | [] => []
  | bs :: bss =>
    (storedHeader bss.isEmpty bs.length).map (·, []) ++ bs.map (fun b => (b, [b])) ++ stored bss

theorem flatten_blocks (x : List UInt8) : (blocks x).flatten = x := by
  fun_induction blocks x with
  | case1 x h => simp
  | case2 x h ih => rw [List.flatten_cons, ih, List.take_append_drop]

theorem length_stored (bss : List (List UInt8)) :
    (stored bss).length = bss.flatten.length + 5 * bss.length := by
  induction bss with
  | nil => rfl
  | cons bs bss ih =>
    simp only [stored, storedHeader, List.length_append, List.length_map, List.length_cons,
      List.length_nil, List.flatten_cons, ih]
    omega

theorem flatten_stored (bss : List (List UInt8)) :
    ((stored bss).map (·.2)).flatten = bss.flatten := by
  induction bss with
  | nil => rfl
  | cons bs bss ih =>
    have hbytes : ((bs.map fun b => (b, [b])).map (·.2)).flatten = bs := by
      induction bs with
      | nil => rfl
      | cons b bs ih => exact congrArg (b :: ·) ih
    rw [stored, List.map_append, List.map_append, List.flatten_append, List.flatten_append, ih,
      hbytes]
    simp [storedHeader]

end StoredBlocks
