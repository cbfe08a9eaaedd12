import McpeLauncher.Lib.Codec

/-!
# Call instructions that are patched

Five bytes are written, the opcode and a displacement of 32 bits that counts from the next
instruction. The opcode is written before the displacement is known to fit.
-/

namespace McpeLauncher.Patch
open Codec

inductive Arch
  | x86
  | x86_64
  deriving DecidableEq

/-- The bits of an address. -/
@[reducible] def Arch.bits : Arch → Nat
  | .x86 => 32
  | .x86_64 => 64

abbrev Addr (arch : Arch) := BitVec arch.bits

def INT_MAX : Int := 2 ^ 31 - 1
def INT_MIN : Int := -2 ^ 31

/-- What is at `patchOff` and behind it. -/
abbrev Code := Nat → UInt8

/-- `memcpy` of bytes to the offset `k`. -/
def Code.memcpy (data : Code) (k : Nat) (bytes : List UInt8) : Code := fun i =>
  if k ≤ i then (bytes[i - k]?).getD (data i) else data i

def opcode (jump : Bool) : UInt8 := if jump then 0xe9 else 0xe8

/-- The branch for other processors than ARM, with the code it leaves. The difference of the
addresses wraps like that of the machine, and `int` has 32 bits. -/
def patchCallInstruction (arch : Arch) (patchOff func : Addr arch) (jump : Bool) (data : Code) :
    Code × Except String Unit :=
  let data := data.memcpy 0 [opcode jump]
  let ptr := func - patchOff - 5
  if ptr.toInt > INT_MAX ∨ ptr.toInt < INT_MIN then
    (data, .error "patchCallInstruction: out of range")
  else
    let iptr : BitVec 32 := ptr.setWidth 32
    (data.memcpy 1 (leBytes 4 iptr.toNat), .ok ())

/-! ## What the bytes mean -/

inductive Instruction (arch : Arch)
  | call (target : Addr arch)
  | jmp (target : Addr arch)
  deriving DecidableEq

/-- Near calls and jumps with a displacement of 32 bits, at the address `pc`. -/
def decode (arch : Arch) (pc : Addr arch) (data : Code) : Option (Instruction arch) :=
  let rel : BitVec 32 := BitVec.ofNat 32 (leNat [data 1, data 2, data 3, data 4])
  let target := pc + 5 + rel.signExtend arch.bits
  if data 0 = 0xe8 then some (.call target)
  else if data 0 = 0xe9 then some (.jmp target)
  else none

/-- The five bytes are the instruction that was asked for, or they are as before and the caller
knows. -/
def ExactOrNothing (arch : Arch) (patchOff func : Addr arch) (jump : Bool) (data : Code) : Prop :=
  match patchCallInstruction arch patchOff func jump data with
  | (data', .ok ()) =>
    decode arch patchOff data' = some (if jump then .jmp func else .call func)
  | (data', .error _) => ∀ i < 5, data' i = data i

/-- The displacement from the next instruction to `func` is one of 32 bits. -/
def InReach (arch : Arch) (patchOff func : Addr arch) : Prop :=
  INT_MIN ≤ (func - (patchOff + 5)).toInt ∧ (func - (patchOff + 5)).toInt ≤ INT_MAX

instance (arch : Arch) (patchOff func : Addr arch) : Decidable (InReach arch patchOff func) :=
  inferInstanceAs (Decidable (_ ∧ _))

section

variable {arch : Arch} {patchOff func : Addr arch} {jump : Bool} {data : Code}

theorem Code.memcpy_of_lt {k i : Nat} {bytes : List UInt8} (h : i < k) :
    data.memcpy k bytes i = data i := if_neg (by omega)

theorem Code.memcpy_of_le {k i : Nat} {bytes : List UInt8} (h : k + bytes.length ≤ i) :
    data.memcpy k bytes i = data i := by
  rw [Code.memcpy, if_pos (by omega), List.getElem?_eq_none (by omega), Option.getD_none]

/-- An `int` that a wider difference fits in loses nothing. -/
theorem signExtend_setWidth_of_fits {x : Addr arch} (hmin : INT_MIN ≤ x.toInt)
    (hmax : x.toInt ≤ INT_MAX) : (x.setWidth 32).signExtend arch.bits = x := by
  simp only [INT_MIN, INT_MAX] at hmin hmax
  have hbits : 32 ≤ arch.bits := by cases arch <;> decide
  apply BitVec.eq_of_toInt_eq
  rw [BitVec.toInt_signExtend_of_le hbits, ← BitVec.signExtend_eq_setWidth_of_le _ hbits,
    BitVec.toInt_signExtend_eq_toInt_bmod_of_le _ hbits]
  exact Int.bmod_eq_of_le (by omega) (by omega)

/-- The bytes that are written decode to the instruction that was asked for. -/
theorem decode_patched (ptr : Addr arch) (hmin : INT_MIN ≤ ptr.toInt) (hmax : ptr.toInt ≤ INT_MAX) :
    decode arch patchOff
        ((data.memcpy 0 [opcode jump]).memcpy 1 (leBytes 4 (ptr.setWidth 32).toNat)) =
      some (if jump then .jmp (patchOff + 5 + ptr) else .call (patchOff + 5 + ptr)) := by
  let data' := (data.memcpy 0 [opcode jump]).memcpy 1 (leBytes 4 (ptr.setWidth 32).toNat)
  have hop : data' 0 = opcode jump := Code.memcpy_of_lt Nat.zero_lt_one
  have hrel : leNat [data' 1, data' 2, data' 3, data' 4] = (ptr.setWidth 32).toNat := by
    change leNat (leBytes 4 (ptr.setWidth 32).toNat) = _
    rw [leNat_leBytes]
    exact Nat.mod_eq_of_lt (ptr.setWidth 32).isLt
  change decode arch patchOff data' = _
  simp only [decode, hop, hrel, BitVec.ofNat_toNat, BitVec.setWidth_eq,
    signExtend_setWidth_of_fits hmin hmax]
  cases jump <;> rfl

/-- A target within reach is patched in, and any other makes the function throw. -/
theorem patchCallInstruction_cases :
    (InReach arch patchOff func ∧
      (patchCallInstruction arch patchOff func jump data).2 = .ok () ∧
      decode arch patchOff (patchCallInstruction arch patchOff func jump data).1 =
        some (if jump then .jmp func else .call func)) ∨
    (¬InReach arch patchOff func ∧ patchCallInstruction arch patchOff func jump data =
      (data.memcpy 0 [opcode jump], .error "patchCallInstruction: out of range")) := by
  have hptr : func - patchOff - 5 = func - (patchOff + 5) := by
    rw [BitVec.sub_eq_add_neg, BitVec.sub_eq_add_neg, BitVec.sub_eq_add_neg, BitVec.neg_add,
      BitVec.sub_eq_add_neg, BitVec.add_assoc]
  simp only [patchCallInstruction, hptr]
  split
  · rename_i hout
    refine .inr ⟨fun h => ?_, rfl⟩
    have := h.1
    have := h.2
    omega
  · rename_i hin
    have hreach : InReach arch patchOff func := ⟨by omega, by omega⟩
    refine .inl ⟨hreach, rfl, ?_⟩
    rw [decode_patched _ hreach.1 hreach.2, BitVec.add_comm (patchOff + 5), BitVec.sub_add_cancel]

/-- Behind the five bytes nothing is written. -/
theorem patchCallInstruction_frame {i : Nat} (hi : 5 ≤ i) :
    (patchCallInstruction arch patchOff func jump data).1 i = data i := by
  have hop : data.memcpy 0 [opcode jump] i = data i :=
    Code.memcpy_of_le (by simp only [List.length_singleton]; omega)
  simp only [patchCallInstruction]
  split
  · exact hop
  · rw [← hop]
    exact Code.memcpy_of_le (by rwa [leBytes_length])

/-- A call is exact or not touched if its target is within reach, or if what is refused would have
had the opcode that is already there. -/
theorem exactOrNothing_iff :
    ExactOrNothing arch patchOff func jump data ↔
      InReach arch patchOff func ∨ data 0 = opcode jump := by
  obtain ⟨hreach, hok, hdecode⟩ | ⟨hreach, hthrow⟩ :=
    @patchCallInstruction_cases arch patchOff func jump data
  · refine ⟨fun _ => .inl hreach, fun _ => ?_⟩
    unfold ExactOrNothing
    generalize patchCallInstruction arch patchOff func jump data = r at hok hdecode
    obtain ⟨data', res⟩ := r
    cases hok
    exact hdecode
  · unfold ExactOrNothing
    rw [hthrow]
    constructor
    · intro h
      exact .inr (h 0 (by decide)).symm
    · rintro (h | hop) i -
      · exact absurd h hreach
      · cases i with
        | zero => exact hop.symm
        | succ i => exact Code.memcpy_of_le (by simp)

/-- On a 32-bit processor every target is within reach. -/
theorem inReach_x86 (patchOff func : Addr .x86) : InReach .x86 patchOff func := by
  have hlo : -2 ^ 31 ≤ (func - (patchOff + 5)).toInt := BitVec.le_toInt _
  have hhi : (func - (patchOff + 5)).toInt < 2 ^ 31 := BitVec.toInt_lt
  exact ⟨hlo, Int.le_sub_one_of_lt hhi⟩

end

/-- The start of a function, `push rbp; mov rbp, rsp; push rbx`. -/
def prologue : Code := fun i => [0x55, 0x48, 0x89, 0xe5, 0x53].getD i 0x90

/-- A target in another library is refused, but the opcode of a call stays in the code. -/
theorem not_exactOrNothing_far :
    ¬ExactOrNothing .x86_64 0x401000#64 0x7f0000000000#64 false prologue := by
  intro h
  have hbytes : ∀ i < 5, (prologue.memcpy 0 [opcode false]) i = prologue i := h
  exact absurd (hbytes 0 (by decide)) (by decide)

end McpeLauncher.Patch
