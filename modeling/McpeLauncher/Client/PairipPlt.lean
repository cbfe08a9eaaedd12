import Mathlib.Algebra.Group.Nat.Defs
import Mathlib.Logic.Basic

/-!
# The PLT of a PairIP library

`apply_pairip_plt_workaround_for` scans the `.got.plt` of a library for entries that were not relocated
and patches them; the resolver fills in an entry when it is called through it. Memory is given by its
words, and the addresses of the launcher's own functions are a parameter.
-/

namespace McpeLauncher.PairipPlt

abbrev Addr := BitVec 64

/-- The word at an address. All words that are read or written here have their addresses in the same
residue class modulo 8. -/
abbrev Memory := Addr → Addr

def writeWord (mem : Memory) (a v : Addr) : Memory := fun b => if b = a then v else mem b

structure Rela where
  r_offset : Addr
  r_info : Addr

structure Sym where
  st_shndx : BitVec 16
  st_value : Addr

def SHN_UNDEF : BitVec 16 := 0

/-- `&func_entries[i]`: three entries of the table are reserved. -/
def funcEntry (pltGot i : Addr) : Addr := pltGot + 8 * (i + 3)

/-! ## The tables of known functions -/

/-- Indices and functions for v1.26.x (205 PLT entries). -/
def knownPltFuncsV126 : List (Nat × String) :=
  [(4, "memset"), (5, "memcpy"), (11, "memmove"), (12, "memcmp"), (66, "malloc"), (69, "calloc"),
   (108, "realloc"), (79, "bionic_file_wrapper::do_fprintf"),
   (145, "bionic_file_wrapper::do_fwrite"), (148, "bionic_file_wrapper::do_fflush"),
   (192, "bionic_file_wrapper::do_fputc"), (109, "pthread_mutex_lock"),
   (110, "pthread_mutex_unlock"), (130, "bionic_pthread_cond_signal"), (154, "newlocale"),
   (155, "uselocale"), (161, "freelocale"), (157, "snprintf"), (115, "strtol"), (116, "strtoll"),
   (117, "strtod"), (118, "wcstol"), (119, "wcstoul"), (120, "wcstol"), (121, "wcstod"),
   (122, "wcstod"), (123, "wcstold"), (124, "snprintf"), (125, "strtoul"), (126, "wcstoul"),
   (113, "mbrtowc"), (190, "syscall")]

/-- Indices and functions for v1.21.x (523 PLT entries). -/
def knownPltFuncs : List (Nat × String) :=
  [(4, "memset"), (5, "memmove"), (9, "free"), (27, "memcpy"), (35, "strlen"), (64, "strcmp"),
   (97, "snprintf"), (103, "malloc"), (134, "calloc"), (232, "realloc"), (512, "posix_memalign"),
   (47, "sprintf"), (126, "bionic_file_wrapper::do_fprintf"), (274, "snprintf"), (41, "strtoull"),
   (42, "strtoll"), (43, "strtod"), (265, "strtoul"), (266, "strtof"), (267, "strtold"),
   (146, "swprintf"), (167, "wcslen"), (258, "wmemchr"), (263, "wmemcmp"), (268, "wcstoul"),
   (269, "wcstoll"), (270, "wcstoull"), (271, "wcstof"), (272, "wcstod"), (273, "wcstold"),
   (98, "bionic_file_wrapper::do_fputs"), (99, "bionic_file_wrapper::do_fopen"),
   (100, "bionic_file_wrapper::do_fseek"), (101, "bionic_file_wrapper::do_ftell"),
   (102, "bionic_file_wrapper::do_fseek"), (104, "bionic_file_wrapper::do_fread"),
   (106, "bionic_file_wrapper::do_fclose"), (345, "bionic_file_wrapper::do_fwrite"),
   (346, "bionic_file_wrapper::do_fflush"), (348, "bionic_file_wrapper::do_fseek"),
   (349, "bionic_file_wrapper::do_ungetc"), (350, "bionic_file_wrapper::do_fgetc"),
   (351, "bionic_file_wrapper::do_ungetc"), (352, "bionic_file_wrapper::do_fgetc"),
   (353, "bionic_file_wrapper::do_fputc"), (505, "bionic_file_wrapper::do_vfprintf"),
   (506, "bionic_file_wrapper::do_fputc"), (507, "free"), (508, "strlen"), (509, "dprintf"),
   (510, "abort"), (519, "pthread_mutex_lock"), (520, "pthread_mutex_unlock"),
   (522, "pthread_mutex_lock"), (119, "pthread_create"), (121, "eventfd"), (138, "close"),
   (139, "write"), (141, "read"), (145, "snprintf"), (128, "pthread_setspecific"),
   (292, "pthread_getspecific"), (312, "pthread_key_create"), (517, "pthread_once"),
   (110, "localtime"), (111, "strftime"), (161, "clock_gettime"), (246, "pthread_mutex_lock"),
   (247, "pthread_mutex_unlock"), (302, "pthread_mutex_destroy"), (303, "pthread_mutex_trylock"),
   (304, "pthread_mutexattr_init"), (305, "pthread_mutexattr_settype"), (306, "pthread_mutex_init"),
   (307, "pthread_mutexattr_destroy"), (308, "pthread_join"), (309, "pthread_detach"),
   (311, "nanosleep"), (287, "bionic_pthread_cond_signal"), (288, "bionic_pthread_cond_signal"),
   (289, "bionic_pthread_cond_broadcast"), (290, "bionic_pthread_cond_wait"),
   (291, "bionic_pthread_cond_timedwait"), (284, "posix_strerror_r"), (285, "abort"),
   (17, "localeconv"), (310, "sysconf"), (360, "newlocale"), (361, "uselocale"), (376, "strftime"),
   (385, "wcstombs"), (417, "setlocale"), (419, "freelocale"), (421, "strcoll_l"),
   (422, "strxfrm_l"), (424, "wcscoll_l"), (425, "wcsxfrm_l"), (427, "iswalpha_l"),
   (437, "iswspace_l"), (438, "iswprint_l"), (439, "iswcntrl_l"), (440, "iswupper_l"),
   (441, "iswlower_l"), (442, "iswdigit_l"), (443, "iswpunct_l"), (444, "iswxdigit_l"),
   (445, "iswblank_l"), (446, "towupper_l"), (447, "towlower_l"), (448, "btowc"), (449, "wctob"),
   (378, "mbsrtowcs"), (452, "wcrtomb"), (453, "wcrtomb"), (454, "mbrtowc"), (455, "mbrtowc"),
   (456, "mbtowc"), (458, "mbrlen"), (486, "strtoll_l"), (487, "strtoull_l"), (491, "syscall")]

def activeTable (pltCount : Nat) : List (Nat × String) :=
  if pltCount > 500 then knownPltFuncs
  else if pltCount ≥ 200 ∧ pltCount ≤ 210 then knownPltFuncsV126
  else []

/-! ## Scan and patch -/

structure Library where
  loadBias : Addr
  pltGot : Addr
  pltRela : List Rela

namespace Library
variable (lib : Library)

/-- `resolved_addrs.count`. -/
def resolved (a : Addr) : Bool := lib.pltRela.any fun rela => lib.loadBias + rela.r_offset = a

def entry (i : Nat) : Addr := funcEntry lib.pltGot (BitVec.ofNat 64 i)

/-- Entry `i` of a PLT at `base`. -/
def fallback (base : Addr) (i : Nat) : Addr := base + 0x16 + BitVec.ofNat 64 i * 0x10

/-- The loop that finds `plt_count` and `plt_section_base`, from the index `i` on. -/
def scanLoop (mem : Memory) : Nat → Nat → Nat → Addr → Nat × Addr
  | 0, _, pltCount, base => (pltCount, base)
  | n + 1, i, pltCount, base =>
    let value := mem (lib.entry i)
    if value = 0 then (pltCount, base)
    else if lib.resolved (lib.entry i) then scanLoop mem n (i + 1) (i + 1) base
    else if 0 < value ∧ value < lib.loadBias then
      let base := if base = 0 then value - 0x16 - BitVec.ofNat 64 i * 0x10 else base
      if value ≠ fallback base i then (pltCount, base)
      else scanLoop mem n (i + 1) (i + 1) base
    else (pltCount, base)

def scan (mem : Memory) : Nat × Addr := lib.scanLoop mem 2048 0 0 0

/-- What the loop that patches the entries has done so far. -/
structure Patched where
  mem : Memory
  knownCount : Nat
  fixedCount : Nat

/-- One round: the first line of the table for the index `i`, or the entry with the load bias. -/
def patchEntry (table : List (Nat × Addr)) (i : Nat) (p : Patched) : Patched :=
  if lib.resolved (lib.entry i) then p
  else
    let value := p.mem (lib.entry i)
    if 0 < value ∧ value < lib.loadBias then
      match table.find? fun line => i == line.1 with
      | some line => { p with mem := writeWord p.mem (lib.entry i) line.2, knownCount := p.knownCount + 1 }
      | none =>
        { p with
          mem := writeWord p.mem (lib.entry i) (value + lib.loadBias)
          fixedCount := p.fixedCount + 1 }
    else p

def patchLoop (table : List (Nat × Addr)) : Nat → Nat → Patched → Patched
  | 0, _, p => p
  | n + 1, i, p => patchLoop table n (i + 1) (lib.patchEntry table i p)

/-- The function of the launcher that a table lists. -/
def lines (address : String → Addr) (pltCount : Nat) : List (Nat × Addr) :=
  (activeTable pltCount).map fun line => (line.1, address line.2)

/-- The scan, and the patches if the table could be made writable. `context` and `trampoline` are the
addresses that the reserved entries get. -/
def fixUp (address : String → Addr) (writable : Bool) (context trampoline : Addr) (mem : Memory) :
    Memory :=
  let (pltCount, base) := lib.scan mem
  if base = 0 then mem
  else if writable then
    let p := lib.patchLoop (lines address pltCount) pltCount 0 ⟨mem, 0, 0⟩
    if 0 < p.fixedCount ∨ 0 < p.knownCount then
      writeWord (writeWord p.mem (lib.pltGot + 8) context) (lib.pltGot + 16) trampoline
    else p.mem
  else mem

end Library

/-! ## The resolver -/

/-- The tables may be missing. The names in the string table are only logged. -/
structure ResolverContext where
  loadBias : Addr
  pltRela : Option (List Rela)
  symtab : Option (BitVec 32 → Sym)
  hasStrtab : Bool
  pltGot : Addr

def elf64RSym (info : Addr) : BitVec 32 := (info >>> 32).setWidth 32

/-- What the handler returns, and the memory behind it; it aborts without a context. The address of
the stub that does nothing is `noop`. -/
def resolveHandler (noop : Addr) (ctx : Option ResolverContext) (pltIndex : Addr) (mem : Memory) :
    Option (Addr × Memory) :=
  ctx.map fun ctx =>
    let gotEntry := funcEntry ctx.pltGot pltIndex
    let unresolved := (noop, writeWord mem gotEntry noop)
    match ctx.pltRela, ctx.symtab, ctx.hasStrtab with
    | some pltRela, some symtab, true =>
      match pltRela.find? fun rela => ctx.loadBias + rela.r_offset = gotEntry with
      | some rela =>
        let sym := symtab (elf64RSym rela.r_info)
        if sym.st_shndx ≠ SHN_UNDEF then
          let resolved := ctx.loadBias + sym.st_value
          (resolved, writeWord mem gotEntry resolved)
        else unresolved
      | none => unresolved
    | _, _, _ => unresolved

/-! ## Addresses of entries -/

section Entries
variable {pltGot : Addr} {i j : Nat}

/-- All entries that fit into the address space are apart. -/
theorem funcEntry_inj (hi : i + 3 < 2 ^ 61) (hj : j + 3 < 2 ^ 61)
    (h : funcEntry pltGot (BitVec.ofNat 64 i) = funcEntry pltGot (BitVec.ofNat 64 j)) : i = j := by
  have heq := (BitVec.add_right_inj _).mp h
  bv_omega

theorem funcEntry_ne_reserved (hi : i + 3 < 2 ^ 61) :
    funcEntry pltGot (BitVec.ofNat 64 i) ≠ pltGot + 8 ∧
      funcEntry pltGot (BitVec.ofNat 64 i) ≠ pltGot + 16 := by
  constructor <;> intro h <;> have heq := (BitVec.add_right_inj _).mp h <;> bv_omega

@[simp] theorem writeWord_same (mem : Memory) (a v : Addr) : writeWord mem a v a = v := if_pos rfl

theorem writeWord_of_ne {a b : Addr} (h : b ≠ a) (mem : Memory) (v : Addr) :
    writeWord mem a v b = mem b :=
  if_neg h

end Entries

namespace Library
variable (lib : Library) {mem : Memory} {base : Addr} {i j n pltCount : Nat}

/-! ## What the scan accepts -/

/-- An entry that is neither resolved nor relocated, for a PLT at `base`. -/
structure Raw (mem : Memory) (base : Addr) (i : Nat) : Prop where
  eq : mem (lib.entry i) = fallback base i
  pos : 0 < mem (lib.entry i)
  lt : mem (lib.entry i) < lib.loadBias

/-- What the scan knows of the entries that it has counted. -/
def Accepted (mem : Memory) (base : Addr) (i : Nat) : Prop :=
  lib.resolved (lib.entry i) = false → base ≠ 0 ∧ lib.Raw mem base i

/-- No entry looks like one of a PLT at address 0. -/
def NoZeroBase (mem : Memory) : Prop :=
  ∀ i < 2048, lib.resolved (lib.entry i) = false → mem (lib.entry i) ≠ fallback 0 i

theorem fallback_sub (value : Addr) (i : Nat) :
    fallback (value - 0x16 - BitVec.ofNat 64 i * 0x10) i = value := by
  simp only [fallback]
  bv_omega

theorem sub_ne_zero {value : Addr} (h : value ≠ fallback 0 i) :
    value - 0x16 - BitVec.ofNat 64 i * 0x10 ≠ 0 := by
  intro hzero
  rw [← fallback_sub value i, hzero] at h
  exact h rfl

theorem entry_ne_reserved (hi : i + 3 < 2 ^ 61) :
    lib.entry i ≠ lib.pltGot + 8 ∧ lib.entry i ≠ lib.pltGot + 16 :=
  funcEntry_ne_reserved hi

variable {lib}

/-- An entry that is counted stays accepted when the base becomes known. -/
theorem Accepted.of_zero (h : lib.Accepted mem 0 j) (base : Addr) : lib.Accepted mem base j :=
  fun hj => absurd rfl (h hj).1

/-- The base is known after the first entry that is not resolved. -/
theorem scanLoop_spec (hzero : lib.NoZeroBase mem) (hn : i + n ≤ 2048) (hi : pltCount = i)
    (h : ∀ j < pltCount, lib.Accepted mem base j) :
    (lib.scanLoop mem n i pltCount base).1 ≤ i + n ∧
      ∀ j < (lib.scanLoop mem n i pltCount base).1,
        lib.Accepted mem (lib.scanLoop mem n i pltCount base).2 j := by
  induction n generalizing i pltCount base with
  | zero => exact ⟨Nat.le_of_eq hi, h⟩
  | succ n ih =>
    subst hi
    have next {base' : Addr} (hbase : ∀ j < pltCount, lib.Accepted mem base' j)
        (hlast : lib.Accepted mem base' pltCount) : ∀ j < pltCount + 1, lib.Accepted mem base' j := by
      intro j hj
      obtain hlt | rfl := Nat.lt_succ_iff_lt_or_eq.mp hj
      · exact hbase j hlt
      · exact hlast
    have hmore : pltCount + 1 + n = pltCount + (n + 1) := by omega
    rw [scanLoop]
    split
    · exact ⟨Nat.le_add_right _ _, h⟩
    · next hne =>
      split
      · next hres =>
        rw [← hmore]
        refine ih (by omega) rfl (next h fun hfalse => ?_)
        cases hres.symm.trans hfalse
      · next hres =>
        have hres : lib.resolved (lib.entry pltCount) = false := Bool.eq_false_iff.mpr hres
        split
        · next hrange =>
          by_cases hb : base = 0
          · subst hb
            have hbase := sub_ne_zero (hzero pltCount (by omega) hres)
            rw [if_pos rfl, if_neg (not_not.mpr (fallback_sub _ _).symm), ← hmore]
            refine ih (by omega) rfl (next (fun j hj => (h j hj).of_zero _) fun _ => ⟨hbase, ?_⟩)
            exact ⟨(fallback_sub _ _).symm, hrange.1, hrange.2⟩
          · simp only [if_neg hb]
            split
            · exact ⟨Nat.le_add_right _ _, h⟩
            · next heq =>
              rw [← hmore]
              exact ih (by omega) rfl (next h fun _ => ⟨hb, not_not.mp heq, hrange.1, hrange.2⟩)
        · exact ⟨Nat.le_add_right _ _, h⟩

theorem scan_spec (hzero : lib.NoZeroBase mem) : (lib.scan mem).1 ≤ 2048 ∧
    ∀ j < (lib.scan mem).1, lib.Accepted mem (lib.scan mem).2 j := by
  have hnone : ∀ j < 0, lib.Accepted mem 0 j := fun j hj => absurd hj (Nat.not_lt_zero j)
  have h := scanLoop_spec hzero (Nat.le_of_eq (Nat.zero_add 2048)) rfl hnone
  rwa [Nat.zero_add] at h

/-! ## What the patches change -/

section Patches
variable {table : List (Nat × Addr)} {p : Patched} {a : Addr}

/-- The value that an entry gets. -/
def patchedValue (lib : Library) (table : List (Nat × Addr)) (i : Nat) (value : Addr) : Addr :=
  match table.find? fun line => i == line.1 with
  | some line => line.2
  | none => value + lib.loadBias

/-- A round changes its own entry only, and no resolved one. -/
theorem patchEntry_frame (h : lib.resolved (lib.entry i) = false → a ≠ lib.entry i) :
    (lib.patchEntry table i p).mem a = p.mem a := by
  rw [patchEntry]
  split
  · rfl
  · next hres =>
    have hne := h (Bool.eq_false_iff.mpr hres)
    dsimp only
    split
    · split
      · exact writeWord_of_ne hne _ _
      · exact writeWord_of_ne hne _ _
    · rfl

theorem patchEntry_same (hres : lib.resolved (lib.entry i) = false)
    (hrange : 0 < p.mem (lib.entry i) ∧ p.mem (lib.entry i) < lib.loadBias) :
    (lib.patchEntry table i p).mem (lib.entry i) =
      patchedValue lib table i (p.mem (lib.entry i)) := by
  rw [patchEntry, hres, if_neg Bool.false_ne_true, if_pos hrange, patchedValue]
  split
  · exact writeWord_same _ _ _
  · exact writeWord_same _ _ _

theorem patchLoop_frame
    (h : ∀ j, i ≤ j → j < i + n → lib.resolved (lib.entry j) = false → a ≠ lib.entry j) :
    (lib.patchLoop table n i p).mem a = p.mem a := by
  induction n generalizing i p with
  | zero => rfl
  | succ n ih =>
    rw [patchLoop, ih fun j hij hj => h j (by omega) (by omega)]
    exact patchEntry_frame (h i (Nat.le_refl i) (by omega))

theorem patchLoop_same (hij : i ≤ j) (hj : j < i + n) (hn : i + n ≤ 2048)
    (hres : lib.resolved (lib.entry j) = false)
    (hrange : 0 < p.mem (lib.entry j) ∧ p.mem (lib.entry j) < lib.loadBias) :
    (lib.patchLoop table n i p).mem (lib.entry j) =
      patchedValue lib table j (p.mem (lib.entry j)) := by
  have hapart {k : Nat} (hk : k < 2048) (hne : j ≠ k) : lib.entry j ≠ lib.entry k :=
    fun h => hne (funcEntry_inj (by omega) (by omega) h)
  induction n generalizing i p with
  | zero => omega
  | succ n ih =>
    rw [patchLoop]
    obtain rfl | hlt := Nat.eq_or_lt_of_le hij
    · rw [patchLoop_frame fun k hik hk _ => hapart (by omega) (by omega)]
      exact patchEntry_same hres hrange
    · have hkeep : (lib.patchEntry table i p).mem (lib.entry j) = p.mem (lib.entry j) :=
        patchEntry_frame fun _ => hapart (by omega) (by omega)
      rw [ih hlt (by omega) (by omega) (hkeep.symm ▸ hrange), hkeep]

end Patches

section FixUp
variable (address : String → Addr) (writable : Bool) (context trampoline : Addr)

/-- An entry that is resolved, or at `plt_count` or behind it, is kept. -/
theorem fixUp_frame (hzero : lib.NoZeroBase mem) (hi : i + 3 < 2 ^ 61)
    (h : lib.resolved (lib.entry i) = true ∨ (lib.scan mem).1 ≤ i) :
    lib.fixUp address writable context trampoline mem (lib.entry i) = mem (lib.entry i) := by
  obtain ⟨hcount, -⟩ := scan_spec hzero
  have hkeep (table : List (Nat × Addr)) :
      (lib.patchLoop table (lib.scan mem).1 0 ⟨mem, 0, 0⟩).mem (lib.entry i) =
        mem (lib.entry i) := by
    refine patchLoop_frame fun j _ hj hres heq => ?_
    obtain hres' | hle := h
    · rw [heq, hres] at hres'
      cases hres'
    · have hij := funcEntry_inj hi (by omega) heq
      omega
  obtain ⟨h₁, h₂⟩ := lib.entry_ne_reserved hi
  simp only [fixUp]
  split
  · rfl
  · split
    · split
      · rw [writeWord_of_ne h₂, writeWord_of_ne h₁]
        exact hkeep _
      · exact hkeep _
    · rfl

/-- Every other entry was one of the PLT, and gets a function or the load bias. -/
theorem fixUp_raw (hzero : lib.NoZeroBase mem) (hi : i < (lib.scan mem).1)
    (hres : lib.resolved (lib.entry i) = false) :
    lib.Raw mem (lib.scan mem).2 i ∧
      lib.fixUp address true context trampoline mem (lib.entry i) =
        patchedValue lib (lines address (lib.scan mem).1) i (mem (lib.entry i)) := by
  obtain ⟨hcount, haccepted⟩ := scan_spec hzero
  obtain ⟨hbase, hraw⟩ := haccepted i hi hres
  obtain ⟨h₁, h₂⟩ := lib.entry_ne_reserved (i := i) (by omega)
  have hpatched : (lib.patchLoop (lines address (lib.scan mem).1) (lib.scan mem).1 0
      ⟨mem, 0, 0⟩).mem (lib.entry i) = _ :=
    patchLoop_same (Nat.zero_le i) (by omega) (by omega) hres ⟨hraw.pos, hraw.lt⟩
  refine ⟨hraw, ?_⟩
  simp only [fixUp, if_neg hbase, if_true]
  split
  · rw [writeWord_of_ne h₂, writeWord_of_ne h₁]
    exact hpatched
  · exact hpatched

end FixUp

end Library

/-- The handler fills in the entry of its index with what it returns. -/
theorem resolveHandler_eq {noop pltIndex result : Addr} {ctx : ResolverContext} {mem mem' : Memory}
    (h : resolveHandler noop (some ctx) pltIndex mem = some (result, mem')) :
    mem' = writeWord mem (funcEntry ctx.pltGot pltIndex) result := by
  simp only [resolveHandler, Option.map_some, Option.some_inj] at h
  split at h
  · split at h
    · split at h
      · cases h; rfl
      · cases h; rfl
    · cases h; rfl
  · cases h; rfl

/-- What the chosen table has for an index. -/
def known (address : String → Addr) (pltCount i : Nat) : Option Addr :=
  ((activeTable pltCount).find? fun line => i == line.1).map fun line => address line.2

theorem patchedValue_lines (lib : Library) (address : String → Addr) (pltCount i : Nat)
    (value : Addr) : lib.patchedValue (Library.lines address pltCount) i value =
      (known address pltCount i).getD (value + lib.loadBias) := by
  have hcomp : (fun line : Nat × Addr => i == line.1) ∘
      (fun line : Nat × String => (line.1, address line.2)) = fun line => i == line.1 := rfl
  rw [Library.patchedValue, Library.lines, List.find?_map, hcomp, known]
  cases (activeTable pltCount).find? fun line => i == line.1 <;> rfl

/-- **The frame law of the PLT.** The entries are those that fit into the address space. -/
theorem fixUp_law (lib : Library) (address : String → Addr) (context trampoline noop : Addr)
    (mem : Memory) (hzero : lib.NoZeroBase mem) :
    (∀ writable i, i + 3 < 2 ^ 61 → lib.resolved (lib.entry i) = true ∨ (lib.scan mem).1 ≤ i →
      lib.fixUp address writable context trampoline mem (lib.entry i) = mem (lib.entry i)) ∧
    (∀ i < (lib.scan mem).1, lib.resolved (lib.entry i) = false →
      mem (lib.entry i) = (lib.scan mem).2 + 0x16 + 16 * BitVec.ofNat 64 i ∧
      lib.fixUp address true context trampoline mem (lib.entry i) =
        (known address (lib.scan mem).1 i).getD (mem (lib.entry i) + lib.loadBias)) ∧
    ∀ ctx pltIndex mem, ∃ result, resolveHandler noop (some ctx) pltIndex mem =
      some (result, writeWord mem (funcEntry ctx.pltGot pltIndex) result) := by
  refine ⟨fun writable i hi h => ?_, fun i hi hres => ?_, fun ctx pltIndex mem => ?_⟩
  · exact Library.fixUp_frame address writable context trampoline hzero hi h
  · obtain ⟨hraw, hvalue⟩ := Library.fixUp_raw address context trampoline hzero hi hres
    refine ⟨hraw.eq.trans ?_, hvalue.trans (patchedValue_lines lib address _ i _)⟩
    rw [Library.fallback, BitVec.mul_comm]
  · have hsome : resolveHandler noop (some ctx) pltIndex mem ≠ none := by
      rw [resolveHandler]
      exact Option.some_ne_none _
    obtain ⟨⟨result, mem'⟩, hresult⟩ := Option.ne_none_iff_exists'.mp hsome
    exact ⟨result, resolveHandler_eq hresult ▸ hresult⟩

/-- A resolved entry, one of a PLT at 0x1000, and the end of the table. -/
def sampleLibrary : Library where
  loadBias := 0x400000
  pltGot := 0
  pltRela := [⟨24 - 0x400000, 0⟩]

def sampleMemory : Memory := fun a => if a = 24 then 5 else if a = 32 then 0x1026 else 0

theorem sample_noZeroBase : sampleLibrary.NoZeroBase sampleMemory := by
  intro i hi _
  have hentry : sampleLibrary.entry i = 0 + 8 * (BitVec.ofNat 64 i + 3) := rfl
  rw [sampleMemory, Library.fallback]
  by_cases h₀ : sampleLibrary.entry i = 24
  · rw [if_pos h₀]
    bv_omega
  · rw [if_neg h₀]
    by_cases h₁ : sampleLibrary.entry i = 32
    · rw [if_pos h₁]
      bv_omega
    · rw [if_neg h₁]
      bv_omega

theorem fixUp_sample :
    sampleLibrary.fixUp (fun _ => 0) true 0 0 sampleMemory (sampleLibrary.entry 1) = 0x401026 := by
  obtain ⟨-, hraw, -⟩ := fixUp_law sampleLibrary (fun _ => 0) 0 0 0 sampleMemory sample_noZeroBase
  have hvalue := (hraw 1 (by decide +kernel) (by decide +kernel)).2
  exact hvalue.trans (by decide +kernel)

end McpeLauncher.PairipPlt
