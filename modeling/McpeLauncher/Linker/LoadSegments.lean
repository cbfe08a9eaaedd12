import McpeLauncher.Lib.AddressSpace
import McpeLauncher.Lib.Elf

/-!
# Loading the segments of a library

`ElfReader` reserves a range of addresses for a library and puts its loadable segments there. Where
pages have 4096 bytes it maps them from the file. Where they have not, the range can be written, and
it copies what it would have mapped. A write to what is not mapped stops the process, which is
`none`; a `false` is for a failure.
-/

namespace McpeLauncher.Linker
open Elf

/-! ## Pages -/

def PAGE_SIZE : Nat := 4096

/-- The number of addresses. -/
def space : ElfClass → Nat
  | .ELF32 => 0x100000000
  | .ELF64 => 0x10000000000000000

/-- A sum as an address. -/
def addr (c : ElfClass) (x : Nat) : Nat := x % space c

def pageOffset (x : Nat) : Nat := x % PAGE_SIZE

def pageStart (x : Nat) : Nat := x - pageOffset x

def pageEnd (c : ElfClass) (x : Nat) : Nat := pageStart (addr c (x + (PAGE_SIZE - 1)))

def alignUp (p align : Nat) : Nat := (p + (align - 1)) / align * align

/-! ## What is loaded -/

structure Phdr where
  pType : Nat
  pFlags : BitVec 32
  pOffset : Nat
  pVaddr : Nat
  pFilesz : Nat
  pMemsz : Nat
  deriving DecidableEq

def PT_LOAD : Nat := 1
def PT_PHDR : Nat := 6
def PF_W : BitVec 32 := 2

def Phdr.isLoad (phdr : Phdr) : Bool := phdr.pType = PT_LOAD

def Phdr.isWritable (phdr : Phdr) : Bool := phdr.pFlags &&& PF_W ≠ 0

/-- The file, where the library is in it, and its program headers. -/
structure ElfReader where
  file : Bytes
  fileOffset : Nat
  fileSize : Nat
  phdrTable : List Phdr

def ElfReader.loads (r : ElfReader) : List Phdr := r.phdrTable.filter Phdr.isLoad

/-- The size of a page, where a new mapping of a size gets to, and whether a mapping to a fixed
place succeeds. -/
structure Kernel where
  pagesize : Nat
  mmap : Nat → Option Nat
  mmapFixed : Nat → Nat → Bool

/-! ## Reserving addresses -/

/-- One turn of the loop over the segments. -/
def extend (c : ElfClass) (range : Nat × Nat) (phdr : Phdr) : Nat × Nat :=
  (min phdr.pVaddr range.1, max (addr c (phdr.pVaddr + phdr.pMemsz)) range.2)

/-- `phdr_table_get_load_size`, with the least address. -/
def phdrTableGetLoadSize (c : ElfClass) (loads : List Phdr) : Nat × Nat :=
  let range := loads.foldl (extend c) (space c - 1, 0)
  let minVaddr := pageStart (if loads = [] then 0 else range.1)
  (addr c (pageEnd c range.2 + (space c - minVaddr)), minVaddr)

/-- `munmap`, which fails without pages. -/
def Kernel.munmap (k : Kernel) (s : AddressSpace) (a n : Nat) : AddressSpace :=
  if a % k.pagesize = 0 ∧ n ≠ 0 then s.fill a (alignUp n k.pagesize) fun _ => .unmapped else s

def kLibraryAlignment : Nat := 0x40000

/-- What new memory has: zeros that can be written only where segments are copied. -/
def Kernel.newCell (k : Kernel) : Cell := if k.pagesize ≠ PAGE_SIZE then .byte 0 else .reserved

/-- `ReserveAligned`, for an alignment of more than a page. -/
def Kernel.reserveAligned (k : Kernel) (s : AddressSpace) (size align : Nat) :
    Option (Nat × AddressSpace) :=
  let mmapSize := alignUp size align + align - PAGE_SIZE
  (k.mmap mmapSize).map fun mmapPtr =>
    let s := s.fill mmapPtr (alignUp mmapSize k.pagesize) fun _ => k.newCell
    let start := alignUp mmapPtr align
    let s := k.munmap s mmapPtr (start - mmapPtr)
    (start, k.munmap s (start + size) (mmapPtr + mmapSize - (start + size)))

/-- Addresses that the caller reserved. -/
structure AddressSpaceParams where
  startAddr : Nat
  reservedSize : Nat
  mustUseAddress : Bool

/-- `load_start_`, `load_bias_` and `load_size_`. -/
structure Reservation where
  loadStart : Nat
  loadBias : Nat
  loadSize : Nat
  deriving DecidableEq

/-- `ReserveAddressSpace`; what the caller has left of its addresses is not part of it. -/
def ElfReader.reserveAddressSpace (c : ElfClass) (k : Kernel) (r : ElfReader)
    (params : AddressSpaceParams) (s : AddressSpace) : Option (Reservation × AddressSpace) :=
  let (loadSize, minVaddr) := phdrTableGetLoadSize c r.loads
  let reservation (start : Nat) : Reservation :=
    ⟨start, addr c (start + (space c - minVaddr)), loadSize⟩
  if loadSize = 0 then none
  else if params.reservedSize < loadSize then
    if params.mustUseAddress then none
    else (k.reserveAligned s loadSize kLibraryAlignment).map fun (start, s) =>
      (reservation start, s)
  else some (reservation params.startAddr, s)

/-! ## Loading segments -/

/-- Where a segment is in memory and in the file. -/
structure Extent where
  segStart : Nat
  segPageStart : Nat
  segPageEnd : Nat
  segFileEnd : Nat
  fileEnd : Nat
  filePageStart : Nat
  fileLength : Nat

def Phdr.extent (c : ElfClass) (loadBias : Nat) (phdr : Phdr) : Extent :=
  let segStart := addr c (phdr.pVaddr + loadBias)
  let fileEnd := addr c (phdr.pOffset + phdr.pFilesz)
  let filePageStart := pageStart phdr.pOffset
  { segStart
    segPageStart := pageStart segStart
    segPageEnd := pageEnd c (addr c (segStart + phdr.pMemsz))
    segFileEnd := addr c (segStart + phdr.pFilesz)
    fileEnd
    filePageStart
    fileLength := addr c (fileEnd + (space c - filePageStart)) }

namespace ElfReader

variable (c : ElfClass) (k : Kernel) (r : ElfReader)

/-- The mapping of the file. -/
def mapFile (e : Extent) (s : AddressSpace) : Option AddressSpace :=
  if e.fileLength = 0 then some s
  else if k.mmapFixed e.segPageStart e.fileLength ∧ (r.fileOffset + e.filePageStart) % PAGE_SIZE = 0
  then some (s.fill e.segPageStart (alignUp e.fileLength PAGE_SIZE) fun i =>
    .byte (r.file.getD (r.fileOffset + e.filePageStart + i) 0))
  else none

/-- Zeros behind a writable segment in its last page. -/
def zeroFill (e : Extent) (isWritable : Bool) (s : AddressSpace) : Option AddressSpace :=
  if isWritable ∧ 0 < pageOffset e.segFileEnd then
    s.write e.segFileEnd (List.replicate (PAGE_SIZE - pageOffset e.segFileEnd) 0)
  else some s

/-- The pages of a segment that are not in the file. -/
def zeroMap (e : Extent) (s : AddressSpace) : Option AddressSpace :=
  let segFileEnd := pageEnd c e.segFileEnd
  if segFileEnd < e.segPageEnd then
    if k.mmapFixed segFileEnd (e.segPageEnd - segFileEnd) then
      some (s.fill segFileEnd (e.segPageEnd - segFileEnd) fun _ => .byte 0)
    else none
  else some s

def mapSegment (e : Extent) (isWritable : Bool) (s : AddressSpace) : Option (Bool × AddressSpace) :=
  match r.mapFile k e s with
  | none => some (false, s)
  | some s =>
    (zeroFill e isWritable s).map fun s =>
      match zeroMap c k e s with
      | none => (false, s)
      | some s => (true, s)

/-- The loop that copies from the file, a buffer after the other. -/
def copyFile (pos dest : Nat) : (remainingBytes : Nat) → AddressSpace → Option (Bool × AddressSpace)
  | 0, s => some (true, s)
  | n + 1, s =>
    let expectedreadsize := min (n + 1) 4096
    let buffer := (r.file.drop pos).take expectedreadsize
    if buffer.length ≠ expectedreadsize then some (false, s)
    else (s.write dest buffer).bind
      (copyFile (pos + expectedreadsize) (dest + expectedreadsize) (n + 1 - expectedreadsize))
termination_by n => n
decreasing_by omega

/-- One turn of the loop in `LoadSegments`. -/
def loadSegment (loadBias : Nat) (phdr : Phdr) (s : AddressSpace) : Option (Bool × AddressSpace) :=
  let e := phdr.extent c loadBias
  if r.fileSize = 0 ∨ r.fileSize < e.fileEnd then some (false, s)
  else if k.pagesize ≠ PAGE_SIZE then
    r.copyFile (r.fileOffset + e.filePageStart) e.segPageStart e.fileLength s
  else r.mapSegment c k e phdr.isWritable s

def loadSegments (loadBias : Nat) : List Phdr → AddressSpace → Option (Bool × AddressSpace)
  | [], s => some (true, s)
  | phdr :: phdrs, s =>
    (r.loadSegment c k loadBias phdr s).bind fun
      | (true, s) => loadSegments loadBias phdrs s
      | (false, s) => some (false, s)

/-! ## The program headers in memory -/

/-- `CheckPhdr`, for the size of the table. -/
def checkPhdr (loadBias loaded : Nat) : Bool :=
  let loadedEnd := addr c (loaded + r.phdrTable.length * c.sizeofPhdr)
  r.loads.any fun phdr =>
    let segStart := addr c (phdr.pVaddr + loadBias)
    segStart ≤ loaded ∧ loadedEnd ≤ addr c (phdr.pFilesz + segStart)

/-- A number in memory. -/
def readMemory (s : AddressSpace) (a n : Nat) : Option Nat :=
  ((List.range n).mapM fun i => (s (a + i)).byte?).map Codec.leNat

/-- Where `e_phoff` is in the file header. -/
def posPhoff : ElfClass → Nat
  | .ELF32 => 28
  | .ELF64 => 32

/-- `FindPhdr`: where the program headers are in memory. -/
def findPhdr (loadBias : Nat) (s : AddressSpace) : Option (Option Nat) :=
  let checked (loaded : Nat) := if r.checkPhdr c loadBias loaded then some loaded else none
  match r.phdrTable.find? fun phdr => phdr.pType = PT_PHDR with
  | some phdr => some (checked (addr c (loadBias + phdr.pVaddr)))
  | none =>
    match r.loads.head? with
    | none => some none
    | some phdr =>
      if phdr.pOffset = 0 then
        let ehdr := addr c (loadBias + phdr.pVaddr)
        (readMemory s (ehdr + posPhoff c) c.word).map fun offset => checked (addr c (ehdr + offset))
      else some none

/-- `Load`: where the library is, and its program headers. -/
def load (params : AddressSpaceParams) (s : AddressSpace) :
    Option (Option (Reservation × Nat) × AddressSpace) :=
  match r.reserveAddressSpace c k params s with
  | none => some (none, s)
  | some (reservation, s) =>
    (r.loadSegments c k reservation.loadBias r.loads s).bind fun
      | (false, s) => some (none, s)
      | (true, s) =>
        (r.findPhdr c reservation.loadBias s).map fun phdr =>
          (phdr.map fun loaded => (reservation, loaded), s)

end ElfReader
end McpeLauncher.Linker
