import McpeLauncher.Lib.Runs
import McpeLauncher.Lib.Words

/-!
# Assets

An asset of the fake asset manager has its content in memory and a signed offset, which is compared
with the unsigned size.
-/

namespace McpeLauncher.FakeAssetManager
open Words

/-- A `std::string`, whose size is less than 2 ^ 63. -/
structure Content where
  bytes : List UInt8
  length_lt : bytes.length < 2 ^ 63

def Content.size (b : Content) : UInt64 := .ofNat b.bytes.length

/-- `memcpy` from `&buffer[start]`, none if that leaves the buffer. -/
def Content.copy (b : Content) (start count : UInt64) : Option (List UInt8) :=
  if start.toNat + count.toNat ≤ b.bytes.length then
    some ((b.bytes.drop start.toNat).take count.toNat)
  else none

structure AAsset where
  buffer : Content
  offset : Int64

/-- `AAssetManager_open` with the content of the file -/
def AAsset.opened (buffer : Content) : AAsset := ⟨buffer, 0⟩

inductive Whence
  | set
  | cur
  | fromEnd

/-- The bytes that are copied, what is returned, and the asset after it. -/
structure Read where
  copied : List UInt8
  result : Int64
  asset : AAsset

namespace AAsset

def read (a : AAsset) (count : UInt64) : Option Read :=
  if a.offset.toUInt64 > a.buffer.size then some ⟨[], 0, a⟩
  else
    let maxLen := a.buffer.size - a.offset.toUInt64
    let count := if count > maxLen then maxLen else count
    if count = 0 then some ⟨[], 0, a⟩
    else (a.buffer.copy a.offset.toUInt64 count).map fun copied =>
      ⟨copied, count.toInt64, { a with offset := (a.offset.toUInt64 + count).toInt64 }⟩

def seek64 (a : AAsset) (offset : Int64) (whence : Whence) : Int64 × AAsset :=
  let maxPos := a.buffer.size.toInt64
  let newOffset := match whence with
    | .set => offset
    | .cur => a.offset + offset
    | .fromEnd => maxPos + offset
  if newOffset < 0 ∨ newOffset > maxPos then (-1, a)
  else (newOffset, { a with offset := newOffset })

/-- `off_t` has 64 bits. -/
def seek (a : AAsset) (offset : Int64) (whence : Whence) : Int64 × AAsset := a.seek64 offset whence

def getRemainingLength64 (a : AAsset) : Int64 := (a.buffer.size - a.offset.toUInt64).toInt64

def getRemainingLength (a : AAsset) : Int64 := (a.buffer.size - a.offset.toUInt64).toInt64

end AAsset

inductive Call
  | read (count : UInt64)
  | seek64 (offset : Int64) (whence : Whence)
  | seek (offset : Int64) (whence : Whence)
  | getRemainingLength64
  | getRemainingLength

def step (a : AAsset) : Call → Option AAsset
  | .read count => (a.read count).map Read.asset
  | .seek64 offset whence => some (a.seek64 offset whence).2
  | .seek offset whence => some (a.seek offset whence).2
  | .getRemainingLength64 => some a
  | .getRemainingLength => some a

/-! ## The cursor -/

namespace AAsset

/-- What is to be read. -/
def rest (a : AAsset) : List UInt8 := a.buffer.bytes.drop a.offset.toInt.toNat

def InRange (a : AAsset) : Prop := 0 ≤ a.offset.toInt ∧ a.offset.toInt ≤ a.buffer.bytes.length

/-- Where a seek goes. -/
def target (a : AAsset) (offset : Int64) : Whence → Int
  | .set => offset.toInt
  | .cur => (a.offset.toInt + offset.toInt).bmod (2 ^ 64)
  | .fromEnd => (a.buffer.bytes.length + offset.toInt).bmod (2 ^ 64)

/-- A read gets the next bytes, and as many as there are. -/
structure Reads (a : AAsset) (count : UInt64) (r : Read) : Prop where
  copied : r.copied = a.rest.take count.toNat
  result : r.result.toInt = min (count.toNat : Int) (a.buffer.bytes.length - a.offset.toInt)
  offset : r.asset.offset.toInt = a.offset.toInt + r.result.toInt
  buffer : r.asset.buffer = a.buffer

/-- A seek to a place in the content goes there, and another one goes nowhere. -/
def Seeks (a : AAsset) (offset : Int64) (whence : Whence) (r : Int64 × AAsset) : Prop :=
  if 0 ≤ a.target offset whence ∧ a.target offset whence ≤ a.buffer.bytes.length then
    r.1.toInt = a.target offset whence ∧ r.2 = { a with offset := r.1 }
  else r = (-1, a)

/-- What the calls do in a state. -/
structure Lawful (a : AAsset) : Prop where
  inRange : a.InRange
  read : ∀ count, ∃ r, a.read count = some r ∧ a.Reads count r
  seek64 : ∀ offset whence, a.Seeks offset whence (a.seek64 offset whence)
  seek : ∀ offset whence, a.Seeks offset whence (a.seek offset whence)
  remaining64 : a.getRemainingLength64.toInt = a.buffer.bytes.length - a.offset.toInt
  remaining : a.getRemainingLength.toInt = a.buffer.bytes.length - a.offset.toInt

end AAsset

section Words
variable {a : AAsset} {b : Content}

theorem Content.toNat_size (b : Content) : b.size.toNat = b.bytes.length := by
  rw [Content.size, UInt64.toNat_ofNat']
  exact Nat.mod_eq_of_lt (b.length_lt.trans (by decide))

theorem Content.toInt_size (b : Content) : b.size.toInt64.toInt = b.bytes.length := by
  have hlt := b.length_lt
  rw [toInt_toInt64 (by rw [b.toNat_size]; exact hlt), b.toNat_size]

namespace AAsset

theorem InRange.toNat_offset (h : a.InRange) : a.offset.toUInt64.toNat = a.offset.toInt.toNat := by
  have hnat := toNat_toUInt64 h.1
  omega

/-- The unsigned subtraction is that of the numbers. -/
theorem InRange.toNat_remaining (h : a.InRange) :
    ((a.buffer.size - a.offset.toUInt64).toNat : Int) =
      a.buffer.bytes.length - a.offset.toInt := by
  have hoffset := toNat_toUInt64 h.1
  have hle : a.offset.toUInt64.toNat ≤ a.buffer.size.toNat := by
    rw [a.buffer.toNat_size]
    have hrange := h.2
    omega
  rw [UInt64.toNat_sub_of_le _ _ (UInt64.le_iff_toNat_le.mpr hle), a.buffer.toNat_size]
  have hrange := h.2
  omega

theorem InRange.toInt_remaining (h : a.InRange) : a.getRemainingLength64.toInt =
    a.buffer.bytes.length - a.offset.toInt := by
  have hremaining := h.toNat_remaining
  have hlt := a.buffer.length_lt
  have hle := h.1
  rw [getRemainingLength64, toInt_toInt64 (by omega), hremaining]

theorem InRange.length_rest (h : a.InRange) :
    (a.rest.length : Int) = a.buffer.bytes.length - a.offset.toInt := by
  obtain ⟨hle, hge⟩ := h
  rw [rest, List.length_drop]
  omega

/-- The count that is left of the caller's. -/
theorem InRange.toNat_count (h : a.InRange) (count : UInt64) :
    (if count > a.buffer.size - a.offset.toUInt64 then a.buffer.size - a.offset.toUInt64
      else count).toNat = min count.toNat a.rest.length := by
  have hremaining := h.toNat_remaining
  have hrest := h.length_rest
  split <;> rename_i hcount <;> rw [gt_iff_lt, UInt64.lt_iff_toNat_lt] at hcount <;> omega

/-- What is left is in the buffer. -/
theorem InRange.copy_eq (h : a.InRange) {n : UInt64} (hn : n.toNat ≤ a.rest.length) :
    a.buffer.copy a.offset.toUInt64 n = some (a.rest.take n.toNat) := by
  have hoffset := h.toNat_offset
  have hrest := h.length_rest
  have hle := h.1
  rw [Content.copy, if_pos (by omega), hoffset, rest]

theorem InRange.toInt_add (h : a.InRange) {n : UInt64} (hn : n.toNat ≤ a.rest.length) :
    (a.offset.toUInt64 + n).toInt64.toInt = a.offset.toInt + n.toInt64.toInt := by
  have hoffset := h.toNat_offset
  have hrest := h.length_rest
  have hlt := a.buffer.length_lt
  have hle := h.1
  have hadd : (a.offset.toUInt64 + n).toNat = a.offset.toUInt64.toNat + n.toNat := by
    rw [UInt64.toNat_add]
    exact Nat.mod_eq_of_lt (by omega)
  rw [toInt_toInt64 (by omega), toInt_toInt64 (by omega), hadd]
  omega

/-- A read stays in the buffer. -/
theorem InRange.read_eq (h : a.InRange) (count : UInt64) :
    ∃ r, a.read count = some r ∧ a.Reads count r := by
  have hrest := h.length_rest
  have hlt := a.buffer.length_lt
  have hnot : ¬ a.offset.toUInt64 > a.buffer.size := by
    have hoffset := h.toNat_offset
    have hle := h.2
    rw [gt_iff_lt, UInt64.lt_iff_toNat_lt, a.buffer.toNat_size]
    omega
  have hcount := h.toNat_count count
  rw [read, if_neg hnot]
  dsimp only
  generalize (if count > a.buffer.size - a.offset.toUInt64 then
    a.buffer.size - a.offset.toUInt64 else count) = n at hcount ⊢
  have hn : n.toNat ≤ a.rest.length := hcount ▸ Nat.min_le_right _ _
  by_cases hzero : n = 0
  · rw [if_pos hzero]
    rw [hzero, UInt64.toNat_zero] at hcount
    refine ⟨_, rfl, ?_, ?_, (Int.add_zero _).symm, rfl⟩
    · rw [List.take_eq_take_min, ← hcount]
      rfl
    · dsimp only
      rw [← hrest, Int64.toInt_zero]
      omega
  · rw [if_neg hzero, h.copy_eq hn, Option.map_some]
    have hle := h.1
    have hresult : n.toInt64.toInt = n.toNat := toInt_toInt64 (by omega)
    refine ⟨_, rfl, ?_, ?_, h.toInt_add hn, rfl⟩
    · rw [hcount, ← List.take_eq_take_min]
    · rw [hresult, ← hrest]
      omega

theorem seeks (a : AAsset) (offset : Int64) (whence : Whence) :
    a.Seeks offset whence (a.seek64 offset whence) := by
  have hsize := a.buffer.toInt_size
  unfold seek64
  dsimp only
  generalize hnew : (match whence with
    | .set => offset
    | .cur => a.offset + offset
    | .fromEnd => a.buffer.size.toInt64 + offset) = newOffset
  have htarget : newOffset.toInt = a.target offset whence := by
    rw [← hnew]
    cases whence with
    | set => rfl
    | cur => exact Int64.toInt_add _ _
    | fromEnd => rw [Int64.toInt_add, hsize, target]
  have hout : (newOffset < 0 ∨ newOffset > a.buffer.size.toInt64) ↔
      ¬ (0 ≤ newOffset.toInt ∧ newOffset.toInt ≤ a.buffer.bytes.length) := by
    rw [gt_iff_lt, Int64.lt_iff_toInt_lt, Int64.lt_iff_toInt_lt, hsize, Int64.toInt_zero]
    omega
  rw [Seeks, ← htarget]
  by_cases hin : 0 ≤ newOffset.toInt ∧ newOffset.toInt ≤ a.buffer.bytes.length
  · rw [if_pos hin, if_neg (mt hout.mp (not_not.mpr hin))]
    exact ⟨rfl, rfl⟩
  · rw [if_neg hin, if_pos (hout.mpr hin)]

theorem InRange.lawful (h : a.InRange) : a.Lawful :=
  ⟨h, h.read_eq, a.seeks, a.seeks, h.toInt_remaining, h.toInt_remaining⟩

theorem Reads.inRange {count : UInt64} {r : Read} (h : a.InRange) (hr : a.Reads count r) :
    r.asset.InRange := by
  have hresult := hr.result
  have hoffset := hr.offset
  obtain ⟨hle, hlt⟩ := h
  rw [InRange, hr.buffer]
  omega

theorem Seeks.inRange {offset : Int64} {whence : Whence} {r : Int64 × AAsset} (h : a.InRange)
    (hr : a.Seeks offset whence r) : r.2.InRange ∧ r.2.buffer = a.buffer := by
  rw [Seeks] at hr
  split at hr
  · rename_i htarget
    rw [hr.2, InRange]
    dsimp only
    rw [hr.1]
    exact ⟨htarget, rfl⟩
  · rw [hr]
    exact ⟨h, rfl⟩

end AAsset

end Words

open AAsset

/-- Every call is defined and keeps the offset in the content, and the content. -/
theorem step_inRange (a : AAsset) (call : Call) (h : a.InRange) :
    ∃ a', step a call = some a' ∧ a'.InRange ∧ a'.buffer = a.buffer := by
  cases call with
  | read count =>
    obtain ⟨r, hread, hr⟩ := h.read_eq count
    exact ⟨r.asset, by rw [step, hread, Option.map_some], hr.inRange h, hr.buffer⟩
  | seek64 offset whence => exact ⟨_, rfl, (a.seeks offset whence).inRange h⟩
  | seek offset whence => exact ⟨_, rfl, (a.seeks offset whence).inRange h⟩
  | getRemainingLength64 => exact ⟨a, rfl, h, rfl⟩
  | getRemainingLength => exact ⟨a, rfl, h, rfl⟩

/-- After every sequence of calls the offset is in the content, and every call does what it has to
do there. -/
theorem asset_run (buffer : Content) (calls : List Call) :
    ∃ a, Runs.run step (.opened buffer) calls = some a ∧ a.buffer = buffer ∧ a.Lawful := by
  have hopened : (AAsset.opened buffer).buffer = buffer ∧ (AAsset.opened buffer).InRange :=
    ⟨rfl, Int.le_refl 0, Int.natCast_nonneg _⟩
  have hstep (a : AAsset) (call : Call) (h : a.buffer = buffer ∧ a.InRange) (_ : True) :
      ∃ a', step a call = some a' ∧ a'.buffer = buffer ∧ a'.InRange := by
    obtain ⟨a', hstep, hrange, hbuffer⟩ := step_inRange a call h.2
    exact ⟨a', hstep, hbuffer.trans h.1, hrange⟩
  have hmeets : Runs.Meets step (fun _ _ => True) (AAsset.opened buffer) calls :=
    Runs.meets_of_forall fun _ _ _ => trivial
  obtain ⟨a, hrun, hbuffer, hrange⟩ := Runs.run_inv hstep hopened hmeets
  exact ⟨a, hrun, hbuffer, hrange.lawful⟩

end McpeLauncher.FakeAssetManager
