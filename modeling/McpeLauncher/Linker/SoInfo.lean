import McpeLauncher.Lib.Elf
import McpeLauncher.Lib.Terminated
import McpeLauncher.Linker.Relr

/-!
# Symbols of a library

`soinfo::find_symbol_by_name` looks a symbol up in one library: first among the symbols that the
launcher put there, then in the hash table of the file, of either kind. Tables are read through
pointers, so that they are functions of the index. `none` stands for a stopped process and for what
is not defined, such as a text that does not end in the string table.
-/

namespace McpeLauncher.Linker
open Elf

/-- The bytes of a C string, without the terminator. -/
abbrev Name := List UInt8

/-- `ElfW(Sym)`, without its size. -/
structure Sym (c : ElfClass) where
  stName : Nat
  stInfo : BitVec 8
  stShndx : Nat
  stValue : Addr c
  deriving DecidableEq

def STB_GLOBAL : Nat := 1
def STB_WEAK : Nat := 2
def SHN_UNDEF : Nat := 0

/-- `ELF_ST_BIND`. -/
def Sym.bind {c : ElfClass} (s : Sym c) : Nat := (s.stInfo >>> 4).toNat

def isSymbolGlobalAndDefined {c : ElfClass} (s : Sym c) : Bool :=
  if s.bind = STB_GLOBAL ∨ s.bind = STB_WEAK then s.stShndx ≠ SHN_UNDEF else false

/-- A version that a symbol is looked up with. -/
structure VersionInfo where
  elfHash : BitVec 32
  name : Name
  deriving DecidableEq

/-- An entry of the version definitions, with the text at `vda_name`. -/
structure Verdef where
  vdVersion : Nat
  base : Bool
  vdNdx : BitVec 16
  vdCnt : Nat
  vdHash : BitVec 32
  vdaName : Name
  deriving DecidableEq

/-- A symbol of the launcher, with the place that gets the address of the symbol that it hides. -/
structure HookEntry (c : ElfClass) where
  symbol : Sym c
  orig : Option Nat
  deriving DecidableEq

structure SoInfo (c : ElfClass) where
  loadBias : Addr c
  strtab : List UInt8
  symtab : Nat → Sym c
  versym : Option (Nat → BitVec 16)
  verdefs : List Verdef
  isGnuHash : Bool
  gnuNbucket : Nat
  gnuMaskwords : BitVec 32
  gnuShift2 : Nat
  gnuBloomFilter : Nat → Addr c
  gnuBucket : Nat → Nat
  gnuChain : Nat → BitVec 32
  nbucket : Nat
  bucket : Option (Nat → Nat)
  chain : Nat → Nat
  symbols : List (Name × HookEntry c)

/-! ## Hashes -/

/-- `calculate_gnu_hash_simple`, without the length. -/
def calculateGnuHash (name : Name) : BitVec 32 :=
  name.foldl (fun h byte => h + (h <<< 5 + BitVec.ofNat 32 byte.toNat)) 5381

def calculateElfHash (name : Name) : BitVec 32 :=
  name.foldl (fun h byte =>
    let h := h <<< 4 + BitVec.ofNat 32 byte.toNat
    let g := h &&& 0xf0000000
    (h ^^^ g) ^^^ g >>> 24) 0

namespace SoInfo

variable {c : ElfClass} (si : SoInfo c)

/-! ## Texts and versions -/

/-- `get_string`, as far as the text ends in the table. -/
def getString (index : Nat) : Option Name :=
  if index < si.strtab.length then
    let text := si.strtab.drop index
    if 0 ∈ text then some (Terminated.upTo 0 text) else none
  else none

def kVersymNotNeeded : BitVec 16 := 0
def kVersymGlobal : BitVec 16 := 1
def kVersymHiddenBit : BitVec 16 := 0x8000

/-- `find_verdef_version_index` goes through the definitions until it finds the version. -/
def findVerdefVersionIndex (vi : Option VersionInfo) : Option (BitVec 16) :=
  match vi with
  | none => some kVersymNotNeeded
  | some vi => go vi si.verdefs
where
  go (vi : VersionInfo) : List Verdef → Option (BitVec 16)
    | [] => some kVersymGlobal
    | verdef :: verdefs =>
      if verdef.vdVersion ≠ 1 then none
      else if verdef.base then go vi verdefs
      else if verdef.vdCnt = 0 then none
      else if verdef.vdHash = vi.elfHash ∧ vi.name = verdef.vdaName then some verdef.vdNdx
      else go vi verdefs

def checkSymbolVersion (verTable : Option (Nat → BitVec 16)) (symIdx : Nat)
    (verneed : BitVec 16) : Bool :=
  match verTable with
  | none => true
  | some verTable =>
    let verdef := verTable symIdx
    if verneed = kVersymNotNeeded then verdef &&& kVersymHiddenBit = 0
    else verneed = verdef &&& ~~~kVersymHiddenBit

/-! ## Hash tables -/

/-- The test of the Bloom filter. -/
def bloomTest (hash : BitVec 32) : Bool :=
  let bloomMaskBits := 8 * c.word
  let wordNum := (BitVec.ofNat 32 (hash.toNat / bloomMaskBits)) &&& si.gnuMaskwords
  let bloomWord := si.gnuBloomFilter wordNum.toNat
  let h1 := hash.toNat % bloomMaskBits
  let h2 := (hash >>> si.gnuShift2).toNat % bloomMaskBits
  (1 &&& (bloomWord >>> h1) &&& (bloomWord >>> h2)) = 1

/-- A symbol of the table is the one that is looked up. -/
def isSymbol (name : Name) (verneed : BitVec 16) (n : Nat) : Option Bool :=
  if checkSymbolVersion si.versym n verneed then do
    let text ← si.getString (si.symtab n).stName
    return text = name && isSymbolGlobalAndDefined (si.symtab n)
  else some false

/-- `isSymbol`, if the hash in the chain fits. -/
def gnuIsSymbol (name : Name) (hash : BitVec 32) (verneed : BitVec 16) (n : Nat) : Option Bool :=
  if (si.gnuChain n ^^^ hash) >>> 1 = 0 then si.isSymbol name verneed n else some false

/-- The numbers of symbols, which have 32 bits. -/
def maxSymbols : Nat := 2 ^ 32

/-- The loop over a chain of the GNU table. -/
def gnuChainLoop (name : Name) (hash : BitVec 32) (verneed : BitVec 16) :
    (fuel : Nat) → (n : Nat) → Option (Option Nat)
  | 0, _ => none
  | fuel + 1, n => do
    if ← si.gnuIsSymbol name hash verneed n then return some n
    else if si.gnuChain n &&& 1 = 0 then gnuChainLoop name hash verneed fuel (n + 1)
    else return none

def gnuLookup (name : Name) (vi : Option VersionInfo) : Option (Option Nat) :=
  let hash := calculateGnuHash name
  if si.bloomTest hash then
    let n := si.gnuBucket (hash.toNat % si.gnuNbucket)
    if n = 0 then some none
    else do
      let verneed ← si.findVerdefVersionIndex vi
      si.gnuChainLoop name hash verneed maxSymbols n
  else some none

/-- The loop over a chain of the table of the other kind. -/
def elfChainLoop (name : Name) (verneed : BitVec 16) :
    (fuel : Nat) → (n : Nat) → Option (Option Nat)
  | 0, _ => none
  | fuel + 1, n => do
    if n = 0 then return none
    else if ← si.isSymbol name verneed n then return some n
    else elfChainLoop name verneed fuel (si.chain n)

def elfLookup (bucket : Nat → Nat) (name : Name) (vi : Option VersionInfo) :
    Option (Option Nat) := do
  let verneed ← si.findVerdefVersionIndex vi
  si.elfChainLoop name verneed maxSymbols (bucket ((calculateElfHash name).toNat % si.nbucket))

/-! ## `find_symbol_by_name` -/

/-- What a lookup gives: the symbol, and the address that it puts somewhere. -/
structure Found (c : ElfClass) where
  sym : Option (Sym c)
  orig : Option (Nat × Addr c)
  deriving DecidableEq

/-- The lookup in the table of the file, if it has one. -/
def tableLookup (name : Name) (vi : Option VersionInfo) : Option (Option (Sym c)) :=
  if si.isGnuHash then (si.gnuLookup name vi).map (Option.map si.symtab)
  else
    match si.bucket with
    | none => some none
    | some bucket => (si.elfLookup bucket name vi).map (Option.map si.symtab)

def findSymbolByName (name : Name) (vi : Option VersionInfo) : Option (Found c) :=
  match si.symbols.lookup name with
  | none => (si.tableLookup name vi).map fun ret2 => ⟨ret2, none⟩
  | some entry =>
    if si.bucket.isSome ∨ si.isGnuHash then
      (si.tableLookup name vi).map fun ret2 =>
        ⟨some entry.symbol, entry.orig.map fun place =>
          (place, match ret2 with
            | some sym => sym.stValue + si.loadBias
            | none => 0)⟩
    else some ⟨some entry.symbol, none⟩

end SoInfo
end McpeLauncher.Linker
