import McpeLauncher.Lib.Codec

/-!
# The libraries that an ELF file needs

File header, program headers, dynamic section and string table of an ELF file, as far as they lead
to the names in its `DT_NEEDED` entries, in both classes and with little-endian words. A file is the
list of its bytes. What is read behind its end has no bytes, and as a number it is `0`.
-/

namespace Elf
open Codec

abbrev Bytes := List UInt8

/-! ## Bytes by position -/

/-- The `n` bytes from the position `pos` on. -/
def slice (bytes : Bytes) (pos n : Nat) : Bytes := (bytes.drop pos).take n

def field (bytes : Bytes) (pos n : Nat) : Nat := leNat (slice bytes pos n)

theorem length_slice {bytes : Bytes} (h : pos + n ≤ bytes.length) :
    (slice bytes pos n).length = n := by
  rw [slice, List.length_take, List.length_drop]
  omega

theorem slice_slice {bytes : Bytes} (h : k + n ≤ len) :
    slice (slice bytes pos len) k n = slice bytes (pos + k) n := by
  rw [slice, slice, slice, List.drop_take, List.take_take, List.drop_drop,
    Nat.min_eq_left (Nat.le_sub_of_add_le (Nat.add_comm k n ▸ h))]

theorem field_slice {bytes : Bytes} (h : k + n ≤ len) :
    field (slice bytes pos len) k n = field bytes (pos + k) n :=
  congrArg leNat (slice_slice h)

theorem field_lt (bytes : Bytes) (pos n : Nat) : field bytes pos n < 256 ^ n := by
  refine Nat.lt_of_lt_of_le (leNat_lt _) (Nat.pow_le_pow_right (by decide) ?_)
  exact List.length_take_le ..

/-! ## Classes -/

inductive ElfClass
  | ELF32
  | ELF64
  deriving DecidableEq, Repr

namespace ElfClass

/-- The size of an address or an offset. -/
def word : ElfClass → Nat
  | ELF32 => 4
  | ELF64 => 8

/-- The largest signed number of that size. No file is longer. -/
def maxSigned : ElfClass → Nat
  | ELF32 => 0x7FFFFFFF
  | ELF64 => 0x7FFFFFFFFFFFFFFF

def sizeofEhdr : ElfClass → Nat
  | ELF32 => 52
  | ELF64 => 64

def sizeofPhdr : ElfClass → Nat
  | ELF32 => 32
  | ELF64 => 56

def sizeofDyn (c : ElfClass) : Nat := c.word + c.word

/-- Where `p_offset` is in a program header. -/
def posOffset : ElfClass → Nat
  | ELF32 => 4
  | ELF64 => 8

/-- Where `p_filesz` is. -/
def posFilesz : ElfClass → Nat
  | ELF32 => 16
  | ELF64 => 32

theorem sizeofDyn_pos (c : ElfClass) : 0 < c.sizeofDyn := by
  cases c <;> decide

end ElfClass

/-! ## File header and program headers -/

/-- The fields `e_phoff`, `e_phentsize` and `e_phnum` of the file header. -/
structure Ehdr where
  phoff : Nat
  phentsize : Nat
  phnum : Nat
  deriving DecidableEq, Repr

def Ehdr.ofBytes (c : ElfClass) (bytes : Bytes) : Ehdr :=
  match c with
  | .ELF32 => ⟨field bytes 28 4, field bytes 42 2, field bytes 44 2⟩
  | .ELF64 => ⟨field bytes 32 8, field bytes 54 2, field bytes 56 2⟩

/-- The fields are in the header. -/
theorem Ehdr.ofBytes_slice (c : ElfClass) (bytes : Bytes) :
    Ehdr.ofBytes c (slice bytes 0 c.sizeofEhdr) = Ehdr.ofBytes c bytes := by
  cases c <;>
    simp only [Ehdr.ofBytes, ElfClass.sizeofEhdr, field_slice, Nat.reduceAdd, Nat.reduceLeDiff,
      Nat.zero_add]

/-- `PT_DYNAMIC`. -/
def ptDynamic : Nat := 2

/-- A table of program headers: where it is, the size of an entry and the number of entries. -/
structure PhdrTable where
  start : Nat
  entsize : Nat
  num : Nat
  deriving DecidableEq, Repr

namespace PhdrTable

/-- The table that the file header gives. -/
def ofBytes (c : ElfClass) (bytes : Bytes) : PhdrTable :=
  let header := Ehdr.ofBytes c bytes
  ⟨header.phoff, header.phentsize, header.phnum⟩

def size (t : PhdrTable) : Nat := t.entsize * t.num

def stop (t : PhdrTable) : Nat := t.start + t.size

def type (t : PhdrTable) (bytes : Bytes) (i : Nat) : Nat :=
  field bytes (t.start + t.entsize * i) 4

def offset (t : PhdrTable) (c : ElfClass) (bytes : Bytes) (i : Nat) : Nat :=
  field bytes (t.start + (t.entsize * i + c.posOffset)) c.word

def filesz (t : PhdrTable) (c : ElfClass) (bytes : Bytes) (i : Nat) : Nat :=
  field bytes (t.start + (t.entsize * i + c.posFilesz)) c.word

/-- The entry `i` is one for the dynamic section. -/
def IsDynamic (t : PhdrTable) (bytes : Bytes) (i : Nat) : Prop :=
  i < t.num ∧ t.type bytes i = ptDynamic

/-- The entry `i` is the last one for the dynamic section. -/
def LastDynamic (t : PhdrTable) (bytes : Bytes) (i : Nat) : Prop :=
  t.IsDynamic bytes i ∧ ∀ j, t.IsDynamic bytes j → j ≤ i

theorem num_le (c : ElfClass) (bytes : Bytes) : (ofBytes c bytes).num ≤ 0xFFFF := by
  have hlt := fun pos => field_lt bytes pos 2
  cases c <;> exact Nat.le_of_lt_succ (hlt _)

theorem entry_le {t : PhdrTable} (hi : i < t.num) : t.entsize * i + t.entsize ≤ t.size :=
  Nat.mul_le_mul_left t.entsize hi

theorem LastDynamic.unique {t : PhdrTable} (hi : t.LastDynamic bytes i)
    (hj : t.LastDynamic bytes j) : i = j :=
  Nat.le_antisymm (hj.2 i hi.1) (hi.2 j hj.1)

end PhdrTable

/-! ## The dynamic section -/

structure Dyn where
  tag : Nat
  val : Nat
  deriving DecidableEq, Repr

def dtNull : Nat := 0
def dtNeeded : Nat := 1
def dtStrtab : Nat := 5
def dtStrsz : Nat := 10

/-- `count` entries of the dynamic section from the position `start` on. -/
def dynamics (c : ElfClass) (bytes : Bytes) (start count : Nat) : List Dyn :=
  (List.range count).map fun k =>
    ⟨field bytes (start + c.sizeofDyn * k) c.word,
      field bytes (start + (c.sizeofDyn * k + c.word)) c.word⟩

@[simp] theorem length_dynamics (c : ElfClass) (bytes : Bytes) (start count : Nat) :
    (dynamics c bytes start count).length = count := by
  rw [dynamics, List.length_map, List.length_range]

/-- The entries of a buffer are those of the file it was read from. -/
theorem dynamics_slice (c : ElfClass) (bytes : Bytes) (start count : Nat) :
    dynamics c (slice bytes start (c.sizeofDyn * count)) 0 count =
      dynamics c bytes start count := by
  refine List.map_congr_left fun k hk => ?_
  have hle : c.sizeofDyn * k + c.sizeofDyn ≤ c.sizeofDyn * count :=
    Nat.mul_le_mul_left c.sizeofDyn (List.mem_range.mp hk)
  have hsize : c.sizeofDyn = c.word + c.word := rfl
  rw [Nat.zero_add, Nat.zero_add, field_slice, field_slice] <;> omega

/-- The entries in front of the first `DT_NULL`. -/
def beforeNull (ds : List Dyn) : List Dyn := ds.takeWhile (·.tag ≠ dtNull)

/-- The first `DT_NULL` and the entries behind it. -/
def fromNull (ds : List Dyn) : List Dyn := ds.dropWhile (·.tag ≠ dtNull)

theorem beforeNull_append_fromNull (ds : List Dyn) : beforeNull ds ++ fromNull ds = ds :=
  List.takeWhile_append_dropWhile

def neededEntries (ds : List Dyn) : List Dyn := ds.filter (·.tag = dtNeeded)

/-- The value of the last entry with that tag; `0` if there is none. -/
def lastValue (tag : Nat) (ds : List Dyn) : Nat :=
  ds.foldl (fun v d => if d.tag = tag then d.val else v) 0

theorem lastValue_append_of_forall_ne (ds : List Dyn) {ds' : List Dyn}
    (h : ∀ d ∈ ds', d.tag ≠ tag) : lastValue tag (ds ++ ds') = lastValue tag ds := by
  rw [lastValue, List.foldl_append, ← lastValue]
  generalize lastValue tag ds = v
  induction ds' with
  | nil => rfl
  | cons d ds' ih =>
    rw [List.foldl_cons, if_neg (h d (.head _))]
    exact ih fun d' hd' => h d' (.tail _ hd')

/-- If there is nothing but `DT_NULL` from the first one on, then the values are in front of it. -/
theorem lastValue_beforeNull (h : ∀ d ∈ fromNull ds, d.tag = dtNull) (htag : tag ≠ dtNull) :
    lastValue tag (beforeNull ds) = lastValue tag ds := by
  conv_rhs => rw [← beforeNull_append_fromNull ds]
  exact (lastValue_append_of_forall_ne _ fun d hd => h d hd ▸ htag.symm).symm

/-! ## The string table -/

/-- The string that begins at the index. -/
def stringAt (strtab : Bytes) (index : Nat) : Bytes := (strtab.drop index).takeWhile (· ≠ 0)

/-- There is a NUL in the table at the index or behind it. -/
def Terminated (strtab : Bytes) (index : Nat) : Prop := 0 ∈ strtab.drop index

instance (strtab : Bytes) (index : Nat) : Decidable (Terminated strtab index) :=
  inferInstanceAs (Decidable (_ ∈ _))

/-! ## Well-formed files -/

/-- The entries of the dynamic section that the program header `i` gives. -/
def dynamicSection (c : ElfClass) (bytes : Bytes) (i : Nat) : List Dyn :=
  let t := PhdrTable.ofBytes c bytes
  dynamics c bytes (t.offset c bytes i) (t.filesz c bytes i / c.sizeofDyn)

/-- The string table of the dynamic section; its address is its offset in the file. -/
def stringTable (bytes : Bytes) (ds : List Dyn) : Bytes :=
  slice bytes (lastValue dtStrtab (beforeNull ds)) (lastValue dtStrsz (beforeNull ds))

/-- The names in the `DT_NEEDED` entries of the dynamic section, in order. -/
def neededNames (bytes : Bytes) (ds : List Dyn) : List Bytes :=
  (neededEntries (beforeNull ds)).map fun d => stringAt (stringTable bytes ds) d.val

/-- The dynamic section has an end, and before that one string table, in the file behind its header,
in which the names of the needed libraries end. -/
structure WellFormedSection (c : ElfClass) (bytes : Bytes) (ds : List Dyn) : Prop where
  null : ∃ d ∈ ds, d.tag = dtNull
  strtab : ∃ d, (beforeNull ds).filter (·.tag = dtStrtab) = [d]
  strsz : ∃ d, (beforeNull ds).filter (·.tag = dtStrsz) = [d]
  strtab_start : c.sizeofEhdr ≤ lastValue dtStrtab (beforeNull ds)
  strtab_stop : lastValue dtStrtab (beforeNull ds) + lastValue dtStrsz (beforeNull ds) ≤ bytes.length
  terminated : ∀ d ∈ neededEntries (beforeNull ds), Terminated (stringTable bytes ds) d.val

/-- The program headers and the dynamic section, of which there is at most one, are in the file. What
the file says about itself in `e_ident` is not looked at. -/
structure WellFormed (c : ElfClass) (bytes : Bytes) : Prop where
  length_le : bytes.length ≤ c.maxSigned
  header : c.sizeofEhdr ≤ bytes.length
  phentsize : (PhdrTable.ofBytes c bytes).entsize = c.sizeofPhdr
  phdrs : (PhdrTable.ofBytes c bytes).stop ≤ bytes.length
  unique : (PhdrTable.ofBytes c bytes).IsDynamic bytes i →
    (PhdrTable.ofBytes c bytes).IsDynamic bytes j → i = j
  dynamic : (PhdrTable.ofBytes c bytes).IsDynamic bytes i →
    (PhdrTable.ofBytes c bytes).offset c bytes i + (PhdrTable.ofBytes c bytes).filesz c bytes i ≤
      bytes.length
  wellFormedSection : (PhdrTable.ofBytes c bytes).IsDynamic bytes i →
    WellFormedSection c bytes (dynamicSection c bytes i)

end Elf
