import McpeLauncher.Linker.PackedRelocs
import McpeLauncher.Linker.SymbolLookup

/-!
# Relocating a library

`soinfo::relocate` goes through the relocation tables of a library. `process_relocation_impl` comes
in three versions: two for the kinds of relocations that a table usually has, which leave the others
to the general one, and this one. The symbol of the last search is kept, so that it is not searched
for again. `Option` is for a stopped process, and a `false` beside the state for a failure.
-/

namespace McpeLauncher.Linker
open Elf PackedRelocs

variable {c : ElfClass}

/-! ## Kinds of relocations -/

inductive Machine : ElfClass → Type
  | aarch64 : Machine .ELF64
  | arm : Machine .ELF32
  | i386 : Machine .ELF32
  | x86_64 : Machine .ELF64
  deriving DecidableEq

/-- `R_GENERIC_*` and what only one machine has. -/
inductive RelocType
  | none
  | jumpSlot
  | absolute
  | globDat
  | relative
  | irelative
  | copy
  | tlsDtpmod
  | tlsDtprel
  | tlsTprel
  | tlsdesc
  | abs32
  | pc32
  | unknown
  deriving DecidableEq

namespace Machine

def relocTypes : Machine c → List (Nat × RelocType)
  | aarch64 => [(0, .none), (1026, .jumpSlot), (257, .absolute), (1025, .globDat),
    (1027, .relative), (1032, .irelative), (1024, .copy), (1028, .tlsDtpmod), (1029, .tlsDtprel),
    (1030, .tlsTprel), (1031, .tlsdesc)]
  | arm => [(0, .none), (22, .jumpSlot), (2, .absolute), (21, .globDat), (23, .relative),
    (160, .irelative), (20, .copy), (17, .tlsDtpmod), (18, .tlsDtprel), (19, .tlsTprel),
    (13, .tlsdesc)]
  | i386 => [(0, .none), (7, .jumpSlot), (1, .absolute), (6, .globDat), (8, .relative),
    (42, .irelative), (5, .copy), (35, .tlsDtpmod), (36, .tlsDtprel), (14, .tlsTprel),
    (41, .tlsdesc), (2, .pc32)]
  | x86_64 => [(0, .none), (7, .jumpSlot), (1, .absolute), (6, .globDat), (8, .relative),
    (37, .irelative), (5, .copy), (16, .tlsDtpmod), (17, .tlsDtprel), (18, .tlsTprel),
    (36, .tlsdesc), (10, .abs32), (2, .pc32)]

def relocType (mach : Machine c) (rType : Nat) : RelocType :=
  (mach.relocTypes.lookup rType).getD .unknown

def isAarch64 : Machine c → Bool
  | aarch64 => true
  | _ => false

end Machine

/-- `is_tls_reloc`. -/
def RelocType.isTls : RelocType → Bool
  | tlsDtpmod | tlsDtprel | tlsTprel | tlsdesc => true
  | _ => false

/-- `ELFW(R_TYPE)`. -/
def relType (reloc : Rel c) : Nat :=
  match c with
  | .ELF32 => reloc.info.toNat % 2 ^ 8
  | .ELF64 => reloc.info.toNat % 2 ^ 32

/-- `ELFW(R_SYM)`. -/
def relSym (reloc : Rel c) : Nat :=
  match c with
  | .ELF32 => reloc.info.toNat / 2 ^ 8
  | .ELF64 => reloc.info.toNat / 2 ^ 32

def STB_LOCAL : Nat := 0
def STT_TLS : Nat := 6
def STT_GNU_IFUNC : Nat := 10

/-- `ELF_ST_TYPE`. -/
def Sym.type (s : Sym c) : Nat := (s.stInfo &&& 0xf).toNat

/-! ## Memory -/

namespace Words

def load (a : Addr c) (m : Words c) : Option (Addr c) :=
  if a.toNat % c.word = 0 then some (m a) else none

def store (a v : Addr c) (m : Words c) : Option (Words c) :=
  if a.toNat % c.word = 0 then some (Function.update m a v) else none

/-- A store of 32 bits, which may be half of a word. -/
def store32 (a : Addr c) (v : BitVec 32) (m : Words c) : Option (Words c) :=
  if a.toNat % 4 = 0 then
    let shift := 8 * (a.toNat % c.word)
    let word := a - BitVec.ofNat _ (a.toNat % c.word)
    let kept := m word &&& ~~~((0xffffffff : BitVec 32).setWidth _ <<< shift)
    some (Function.update m word (kept ||| v.setWidth _ <<< shift))
  else none

end Words

/-! ## Versions -/

/-- An entry of `DT_VERNEED` with its `Vernaux` entries: hash, name and number of a version. -/
structure Verneed where
  vnVersion : Nat
  vnFile : Name
  vnaux : List (BitVec 32 × Name × BitVec 16)

/-- `version_infos`. -/
abbrev VersionTracker := List (Option VersionInfo)

namespace VersionTracker

def getVersionInfo (tracker : VersionTracker) (sourceSymver : BitVec 16) : Option VersionInfo :=
  if sourceSymver.toNat < 2 then none else (tracker[sourceSymver.toNat]?).join

def addVersionInfo (tracker : VersionTracker) (sourceIndex : BitVec 16) (elfHash : BitVec 32)
    (verName : Name) : VersionTracker :=
  let resized := tracker ++ List.replicate (sourceIndex.toNat + 1 - tracker.length) none
  resized.set sourceIndex.toNat (some ⟨elfHash, verName⟩)

/-- `init_verneed`. The files are among the libraries that the library needs. -/
def initVerneed (sonames : List Name) : List Verneed → VersionTracker → Option VersionTracker
  | [], tracker => some tracker
  | verneed :: verneeds, tracker =>
    if verneed.vnVersion ≠ 1 then none
    else if verneed.vnFile ∈ sonames then
      initVerneed sonames verneeds (verneed.vnaux.foldl (fun tracker (elfHash, verName, index) =>
        tracker.addVersionInfo index elfHash verName) tracker)
    else none

def initVerdef : List Verdef → VersionTracker → Option VersionTracker
  | [], tracker => some tracker
  | verdef :: verdefs, tracker =>
    if verdef.vdVersion ≠ 1 then none
    else if verdef.base then initVerdef verdefs tracker
    else if verdef.vdCnt = 0 then none
    else initVerdef verdefs (tracker.addVersionInfo verdef.vdNdx verdef.vdHash verdef.vdaName)

def init (sonames : List Name) (verneeds : List Verneed) (verdefs : List Verdef) :
    Option VersionTracker :=
  (initVerneed sonames verneeds []).bind (initVerdef verdefs)

end VersionTracker

/-! ## The search for a symbol -/

/-- What does not change while a library is relocated. -/
structure Relocator (c : ElfClass) where
  machine : Machine c
  si : SoInfo c
  isLinked : Bool
  isLinker : Bool
  hasTls : SoInfo c → Bool
  versionTracker : VersionTracker
  lookupList : SymbolLookupList c
  callIfuncResolver : Addr c → Addr c

/-- The words in memory, the addresses at the places of hook entries, and the last search. -/
structure RelocState (c : ElfClass) where
  words : Words c
  origs : Nat → Addr c
  cacheSymVal : Nat
  cache : Option (SoInfo c × Sym c)

/-- The library and the symbol of a search. -/
def definition (found : Option (SoInfo c × SoInfo.Found c)) : Option (SoInfo c × Sym c) :=
  found.bind fun (lib, f) => f.sym.map fun sym => (lib, sym)

namespace RelocState

/-- After a search. -/
def remember (s : RelocState c) (rSym : Nat) (found : Option (SoInfo c × SoInfo.Found c)) :
    RelocState c :=
  { s with
    cacheSymVal := rSym
    cache := definition found
    origs := match found.bind fun (_, f) => f.orig with
      | none => s.origs
      | some (place, a) => Function.update s.origs place a }

/-- Without the last search. -/
def forget (s : RelocState c) : RelocState c := { s with cacheSymVal := 0, cache := none }

end RelocState

namespace Relocator

variable (r : Relocator c)

/-- `lookup_version_info`. -/
def lookupVersionInfo (sym : Nat) : Option (Option VersionInfo) :=
  match r.si.versym with
  | none => some none
  | some versym =>
    if versym sym ≠ 0 ∧ versym sym ≠ 1 then (r.versionTracker.getVersionInfo (versym sym)).map some
    else some none

/-- `lookup_symbol`, when the symbol is not the one of the last search. -/
def searchSymbol (rSym : Nat) (symName : Name) (s : RelocState c) :
    Option (Option (RelocState c)) :=
  match r.lookupVersionInfo rSym with
  | none => some none
  | some vi =>
    (soinfoDoLookup symName vi r.lookupList).map fun found => some (s.remember rSym found)

/-- The state with the symbol as the last one. -/
def findSymbol (rSym : Nat) (symName : Name) (s : RelocState c) : Option (Option (RelocState c)) :=
  if rSym = s.cacheSymVal then some (some s) else r.searchSymbol rSym symName s

/-- A symbol that is not there is a failure while the library is linked, unless it is weak. -/
def mustBeThere (rSym : Nat) : Bool := (r.si.symtab rSym).bind ≠ STB_WEAK && !r.isLinked

/-- `lookup_symbol`. -/
def lookupSymbol (rSym : Nat) (symName : Name) (s : RelocState c) :
    Option (Option (Option (SoInfo c × Sym c)) × RelocState c) :=
  (r.findSymbol rSym symName s).map fun
    | none => (none, s)
    | some s => (if s.cache.isNone && r.mustBeThere rSym then none else some s.cache, s)

def resolveSymbolAddress (lib : SoInfo c) (sym : Sym c) : Addr c :=
  if sym.type = STT_GNU_IFUNC then r.callIfuncResolver (sym.stValue + lib.loadBias)
  else sym.stValue + lib.loadBias

/-- `relocator.get_string`, for relocations with a symbol. -/
def symName (reloc : Rel c) : Option Name :=
  if relSym reloc = 0 then some [] else r.si.getString (r.si.symtab (relSym reloc)).stName

def type (reloc : Rel c) : RelocType := r.machine.relocType (relType reloc)

/-- `rel_target`. -/
def target (reloc : Rel c) : Addr c := reloc.offset + r.si.loadBias

/-! ## One relocation -/

/-- The address of the symbol of a TLS relocation. -/
def tlsAddress (reloc : Rel c) (symName : Name) (s : RelocState c) :
    Option (Option (Addr c) × RelocState c) :=
  if relSym reloc = 0 then some (if r.hasTls r.si then some 0 else none, s)
  else if (r.si.symtab (relSym reloc)).bind = STB_LOCAL then some (none, s)
  else (r.lookupSymbol (relSym reloc) symName s).map fun
    | (none, s) => (none, s)
    | (some none, s) => (some 0, s)
    | (some (some (lib, sym)), s) =>
      (if r.hasTls lib && sym.type = STT_TLS then some sym.stValue else none, s)

/-- The address of the symbol of any other relocation. For a weak symbol that is not there, a
relative address is one to the place itself. -/
def plainAddress (isGeneral : Bool) (reloc : Rel c) (symName : Name) (s : RelocState c) :
    Option (Option (Addr c) × RelocState c) :=
  if relSym reloc = 0 then some (some 0, s)
  else (r.lookupSymbol (relSym reloc) symName s).map fun
    | (none, s) => (none, s)
    | (some none, s) =>
      (some (if isGeneral && !r.isLinked && r.type reloc = .pc32 then r.target reloc else 0), s)
    | (some (some (lib, sym)), s) => (some (r.resolveSymbolAddress lib sym), s)

def symAddress (isGeneral : Bool) (reloc : Rel c) (symName : Name) (s : RelocState c) :
    Option (Option (Addr c) × RelocState c) :=
  if isGeneral && (r.type reloc).isTls then r.tlsAddress reloc symName s
  else r.plainAddress isGeneral reloc symName s

/-- `get_addend_rel`. 64-bit machines have it in the table, the others at the place. -/
def addendRel (reloc : Rel c) (m : Words c) : Option (Addr c) :=
  if c = .ELF64 then some reloc.addend else m.load (r.target reloc)

/-- `get_addend_norel`. -/
def addendNorel (reloc : Rel c) : Addr c := if c = .ELF64 then reloc.addend else 0

inductive RelocMode
  | jumpTable
  | typical
  | general
  deriving DecidableEq

/-- The kinds that a version does by itself, before the others. -/
def RelocMode.handles : RelocMode → RelocType → Bool
  | jumpTable, .jumpSlot => true
  | typical, .absolute | typical, .globDat | typical, .relative => true
  | general, .jumpSlot | general, .absolute | general, .globDat | general, .relative => true
  | _, _ => false

/-- What these kinds put at the place. -/
def result (reloc : Rel c) (symAddr : Addr c) (m : Words c) : Option (Addr c) :=
  match r.type reloc with
  | .absolute => (r.addendRel reloc m).map (symAddr + ·)
  | .relative => (r.addendRel reloc m).map (r.si.loadBias + ·)
  | _ => some (symAddr + addendNorel reloc)

/-- The state after a store. -/
def stored (s : RelocState c) (words : Option (Words c)) : Option (Bool × RelocState c) :=
  words.map fun words => (true, { s with words })

/-- The `switch` over the remaining kinds. -/
def processOther (reloc : Rel c) (symAddr : Addr c) (s : RelocState c) :
    Option (Bool × RelocState c) :=
  match r.type reloc with
  | .irelative =>
    if r.isLinker then some (true, s)
    else stored s do
      let addend ← r.addendRel reloc s.words
      s.words.store (r.target reloc) (r.callIfuncResolver (r.si.loadBias + addend))
  | .tlsdesc => if r.machine.isAarch64 then none else some (false, s)
  | .abs32 =>
    stored s (s.words.store32 (r.target reloc) ((symAddr + reloc.addend).setWidth 32))
  | .pc32 =>
    if c = .ELF64 then
      let result := symAddr + reloc.addend - r.target reloc
      stored s (s.words.store32 (r.target reloc) (result.setWidth 32))
    else stored s do
      let addend ← r.addendRel reloc s.words
      s.words.store (r.target reloc) (symAddr + addend - r.target reloc)
  | _ => some (false, s)

/-- `process_relocation_impl` behind the search, with what happens to the kinds that the version does
not handle. A linked library is relocated again only where there is a symbol. -/
def applyRelocation (mode : RelocMode)
    (rest : (symAddr : Addr c) → RelocState c → Option (Bool × RelocState c)) (reloc : Rel c) :
    Option (Addr c) × RelocState c → Option (Bool × RelocState c)
  | (none, s) => some (false, s)
  | (some symAddr, s) =>
    if r.isLinked && symAddr = 0 then some (true, s)
    else if mode.handles (r.type reloc) then
      stored s ((r.result reloc symAddr s.words).bind fun v => s.words.store (r.target reloc) v)
    else rest symAddr s

def processRelocationImpl (mode : RelocMode)
    (rest : (symAddr : Addr c) → RelocState c → Option (Bool × RelocState c)) (reloc : Rel c)
    (s : RelocState c) : Option (Bool × RelocState c) :=
  (r.symName reloc).bind fun symName =>
    if r.type reloc = .none then some (true, s)
    else (r.symAddress (mode = .general) reloc symName s).bind (r.applyRelocation mode rest reloc)

def processRelocationGeneral (reloc : Rel c) (s : RelocState c) : Option (Bool × RelocState c) :=
  r.processRelocationImpl .general (r.processOther reloc) reloc s

def processRelocation (mode : RelocMode) (reloc : Rel c) (s : RelocState c) :
    Option (Bool × RelocState c) :=
  if mode = .general then r.processRelocationGeneral reloc s
  else r.processRelocationImpl mode (fun _ s => r.processRelocationGeneral reloc s) reloc s

end Relocator

/-! ## Tables -/

/-- What a version of `process_relocation` does. -/
abbrev Process (c : ElfClass) :=
  Relocator.RelocMode → Rel c → RelocState c → Option (Bool × RelocState c)

namespace Process

variable (p : Process c)

/-- As the loops over tables call it. A stopped process has no state. -/
def callback (mode : Relocator.RelocMode) : Callback c (Option (RelocState c)) := fun reloc s =>
  match s.bind (p mode reloc) with
  | some (going, s) => (going, some s)
  | none => (false, none)

/-- The state behind a loop. -/
def ofLoop : Bool × Option (RelocState c) → Option (Bool × RelocState c)
  | (going, s) => s.map fun s => (going, s)

/-- `plain_relocate`. -/
def plain (mode : Relocator.RelocMode) (rels : List (Rel c)) (s : RelocState c) :
    Option (Bool × RelocState c) :=
  ofLoop (plainRelocate (p.callback mode) rels (some s))

/-- `packed_relocate`, behind the signature. -/
def packed (mode : Relocator.RelocMode) (relocs : List UInt8) (s : RelocState c) :
    Option (Bool × RelocState c) :=
  (forAllPackedRelocs (p.callback mode) relocs (some s)).bind ofLoop

/-- **A packed table** relocates as the plain table of the same relocations, however they were put
into groups. -/
theorem packed_eq_plain (p : Process c) (mode : Relocator.RelocMode) {start : Addr c}
    {gs : List (Group c)} (hgs : GroupsFit ⟨start, 0, 0⟩ gs)
    (htotal : (relocs gs).length < 2 ^ (8 * c.word)) (rest : List UInt8) (s : RelocState c) :
    p.packed mode (PackedRelocs.packed start gs ++ rest) s = p.plain mode (relocs gs) s := by
  rw [packed, forAllPackedRelocs_packed _ hgs htotal, Option.bind_some, plain]

theorem packed_eq_plain_sharedGroup :
    Process.packed (fun _ _ s => some (true, s)) .typical
      (PackedRelocs.packed 0x1000 [sharedGroup] ++ [7]) ⟨fun a => a, fun _ => 0, 0, none⟩ =
    Process.plain (fun _ _ s => some (true, s)) .typical (relocs [sharedGroup])
      ⟨fun a => a, fun _ => 0, 0, none⟩ :=
  packed_eq_plain _ .typical sharedGroup_fits (by decide) [7] _

end Process

/-- The relocation tables of a library, and what it says about versions. A table that is not there
has no entries. -/
structure RelocTables (c : ElfClass) where
  sonames : List Name
  verneeds : List Verneed
  androidRelocs : Option (List UInt8)
  relr : List (Addr c)
  rel : List (Rel c)
  pltRel : List (Rel c)

/-- `APS2`. -/
def signature : List UInt8 := [0x41, 0x50, 0x53, 0x32]

namespace RelocTables

variable (t : RelocTables c)

def relocateAndroid (p : Process c) (s : RelocState c) : Option (Bool × RelocState c) :=
  match t.androidRelocs with
  | none => some (true, s)
  | some relocs =>
    if relocs.take 4 = signature then p.packed .typical (relocs.drop 4) s else some (false, s)

/-- A table, unless one failed before it. -/
def next (x : Option (Bool × RelocState c)) (f : RelocState c → Option (Bool × RelocState c)) :
    Option (Bool × RelocState c) :=
  x.bind fun
    | (true, s) => f s
    | (false, s) => some (false, s)

def relocate (loadBias : Addr c) (p : Process c) (s : RelocState c) :
    Option (Bool × RelocState c) :=
  let relocated := next (t.relocateAndroid p s) fun s =>
    Relocator.stored s (Relr.relocateRelr loadBias t.relr s.words)
  next (next relocated (p.plain .typical t.rel)) (p.plain .jumpTable t.pltRel)

end RelocTables

namespace Relocator

variable (r : Relocator c)

/-- `process_relocation`. -/
def process (slow : Bool) : Process c :=
  if slow then fun _ => r.processRelocationGeneral else r.processRelocation

/-- `soinfo::relocate`, with what is done to each relocation. -/
def relocateWith (process : Relocator c → Process c) (t : RelocTables c) (words : Words c)
    (origs : Nat → Addr c) : Option (Bool × RelocState c) :=
  let s : RelocState c := ⟨words, origs, 0, none⟩
  match VersionTracker.init t.sonames t.verneeds r.si.verdefs with
  | none => some (false, s)
  | some versionTracker => t.relocate r.si.loadBias (process { r with versionTracker }) s

def relocate (slow : Bool) : RelocTables c → Words c → (Nat → Addr c) →
    Option (Bool × RelocState c) :=
  r.relocateWith fun r => r.process slow

end Relocator
end McpeLauncher.Linker
