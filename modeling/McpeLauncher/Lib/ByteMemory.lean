import Mathlib.Data.List.GetD
import McpeLauncher.Lib.Codec

/-!
# Objects by their bytes

The bytes behind a pointer, what is read from them and what a sequence of stores makes of them.
-/

namespace ByteMemory
open Codec

abbrev Memory := Nat → UInt8

/-- What is stored at which offset. -/
abbrev Store := Nat × List UInt8

namespace Memory

def bytes (m : Memory) (off n : Nat) : List UInt8 := (List.range n).map fun k => m (off + k)

/-- A 16-bit word. -/
def half (m : Memory) (off : Nat) : UInt16 := UInt16.ofNat (leNat (m.bytes off 2))

def store (m : Memory) (s : Store) : Memory := fun k =>
  if s.1 ≤ k then s.2.getD (k - s.1) (m k) else m k

/-- The stores one after the other. -/
def storeAll (m : Memory) (stores : List Store) : Memory := stores.foldl store m

end Memory

def Store.halfAt (off : Nat) (n : UInt16) : Store := (off, leBytes 2 n.toNat)

section
variable {m : Memory} {s : Store} {off n : Nat}

@[simp] theorem bytes_length (m : Memory) (off n : Nat) : (m.bytes off n).length = n := by
  simp [Memory.bytes]

theorem bytes_congr {m' : Memory} (h : ∀ k, off ≤ k → k < off + n → m' k = m k) :
    m'.bytes off n = m.bytes off n := by
  refine List.map_congr_left fun k hk => h _ (Nat.le_add_right off k) ?_
  have hlt := List.mem_range.mp hk
  omega

/-- A store is seen where it was made. -/
theorem bytes_store_same (m : Memory) (off : Nat) (bs : List UInt8) :
    (m.store (off, bs)).bytes off bs.length = bs := by
  refine List.ext_getElem (by simp) fun k hk hk' => ?_
  have hlt : k < bs.length := hk'
  simp [Memory.bytes, Memory.store, hlt]

/-- A store is not seen elsewhere. -/
theorem bytes_store_of_disjoint (h : off + n ≤ s.1 ∨ s.1 + s.2.length ≤ off) :
    (m.store s).bytes off n = m.bytes off n := by
  refine bytes_congr fun k hk hk' => ?_
  rw [Memory.store]
  split
  · next hle =>
    have hlength : s.2.length ≤ k - s.1 := by omega
    exact List.getD_eq_default _ _ hlength
  · rfl

theorem half_store_same (m : Memory) (off : Nat) (v : UInt16) :
    (m.store (Store.halfAt off v)).half off = v := by
  have hbytes := bytes_store_same m off (leBytes 2 v.toNat)
  rw [leBytes_length] at hbytes
  have hlt : v.toNat < 256 ^ 2 := v.toNat_lt
  rw [Memory.half, Store.halfAt, hbytes, leNat_leBytes, Nat.mod_eq_of_lt hlt, UInt16.ofNat_toNat]

theorem half_store_of_disjoint (h : off + 2 ≤ s.1 ∨ s.1 + s.2.length ≤ off) :
    (m.store s).half off = m.half off := by
  rw [Memory.half, bytes_store_of_disjoint h, Memory.half]

end

end ByteMemory
