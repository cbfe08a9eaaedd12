import Mathlib.Data.List.AList
import Mathlib.Data.List.Perm.Basic
import McpeLauncher.Lib.Runs

/-!
# The hook manager

`HookManager` redirects the relocation slots of the loaded libraries to the replacements of hooked
symbols. The libraries themselves are the environment: `Process` gives what the dynamic section and
the symbol table of each of them say.

Pointers to the three kinds of objects on the heap are numbers. Those to a `HookedSymbol` and to a
`HookInstance` are never used again; the addresses of `LibInfo` objects are given out by an
allocator that may reuse what has been freed. An access to a freed object has no defined behaviour:
the operation returns `none`. Null pointers are `none`, or `0` where they point to code or to a
word.
-/

namespace McpeLauncher.Hook

abbrev Handle := Nat
abbrev Addr := Nat
abbrev SymId := Nat
abbrev HookId := Nat

/-! ## The loaded libraries -/

/-- The types `R_GENERIC_ABSOLUTE`, `R_GENERIC_JUMP_SLOT`, `R_GENERIC_GLOB_DAT` and the rest. -/
inductive RelocType where
  | ABSOLUTE
  | JUMP_SLOT
  | GLOB_DAT
  | other (type : Nat)
  deriving DecidableEq, Repr

/-- The types for which `applyHooks` writes the slot. -/
def RelocType.supported : RelocType → Bool
  | ABSOLUTE | JUMP_SLOT | GLOB_DAT => true
  | other _ => false

/-- A relocation; `addr` is the word at `base + r_offset`. -/
structure Reloc where
  type : RelocType
  sym : Nat
  addr : Nat
  deriving DecidableEq, Repr

/-- A symbol; `isDefined` is what `is_symbol_global_and_defined` and `check_symbol_version` say. -/
structure Sym where
  name : String
  isDefined : Bool
  deriving DecidableEq, Repr

/-- A loaded library. The tables `DT_REL` and `DT_RELA` are both dynamic relocation tables: which of
them there is depends on the architecture. `needed` has the handles of the `DT_NEEDED` libraries
that `dlopen` with `RTLD_NOLOAD` finds. -/
structure Image where
  symtab : List Sym := []
  rel : List Reloc := []
  rela : List Reloc := []
  pltrel : List Reloc := []
  needed : List Handle := []

namespace Image

/-- All relocations, in the dynamic relocation tables and in the PLT relocation table. -/
def relocs (m : Image) : List Reloc := m.rel ++ m.rela ++ m.pltrel

/-- The relocations in the tables that the constructor of `LibInfo` keeps. -/
def recorded (m : Image) : List Reloc := m.rel ++ m.pltrel

/-- `LibInfo::getSymbolName`. -/
def getSymbolName (m : Image) (symbolIndex : Nat) : Option String :=
  m.symtab[symbolIndex]?.map Sym.name

/-- `soinfo::find_symbol_by_name`: the index of the defined symbol of this name. -/
def findSymbolByName (m : Image) (name : String) : Option Nat :=
  m.symtab.findIdx? fun sym => sym.isDefined && sym.name == name

/-- `(ElfW(Word)) -1`. -/
def noIndex : Nat := 0xFFFFFFFF

/-- `HookManager::getSymbolIndex`. -/
def getSymbolIndex (m : Image) (name : String) : Nat :=
  (m.findSymbolByName name).getD noIndex

theorem getSymbolIndex_lt {m : Image} (h : m.getSymbolIndex name ≠ noIndex) :
    m.getSymbolIndex name < m.symtab.length := by
  rw [getSymbolIndex] at h ⊢
  cases hfind : m.findSymbolByName name with
  | none => exact absurd (by rw [hfind]; rfl) h
  | some i =>
    obtain ⟨hlt, -⟩ := List.findIdx?_eq_some_iff_getElem.mp hfind
    exact hlt

end Image

/-- The libraries that are loaded. Each relocation has a slot of its own. -/
structure Process where
  image : Handle → Image
  slots_nodup : ∀ h, ((image h).relocs.map Reloc.addr).Nodup
  slots_disjoint : ∀ h h', h ≠ h' → ∀ r ∈ (image h).relocs, ∀ r' ∈ (image h').relocs,
    r.addr ≠ r'.addr

/-- Three libraries: the first one defines `foo`, and the others need the first one. The second one
imports `foo`, the third one defines it itself. The symbol at index 0 is the undefined one. -/
def fooLibraries : Process where
  image
    | 1 => { symtab := [⟨"", false⟩, ⟨"foo", true⟩], pltrel := [⟨.JUMP_SLOT, 1, 100⟩] }
    | 2 => { symtab := [⟨"", false⟩, ⟨"foo", false⟩], pltrel := [⟨.JUMP_SLOT, 1, 104⟩]
             needed := [1] }
    | 3 => { symtab := [⟨"", false⟩, ⟨"foo", true⟩], rel := [⟨.GLOB_DAT, 1, 108⟩], needed := [1] }
    | _ => {}
  slots_nodup h := by
    split <;> simp [Image.relocs]
  slots_disjoint h h' hne := by
    split <;> split <;> simp_all [Image.relocs]

/-! ## The state -/

structure HookInstance where
  symbol : SymId
  parent : Option HookId := none
  child : Option HookId := none
  replacement : Nat
  orig : Addr
  deriving DecidableEq, Repr

structure HookedSymbol where
  lib : Addr
  symbolIndex : Nat
  original : Nat := 0
  firstHook : Option HookId := none
  lastHook : Option HookId := none
  deriving DecidableEq, Repr

structure LibInfo where
  handle : Handle
  hookedSymbols : Nat → Option SymId := fun _ => none
  dependencies : List Handle

/-- The members of the manager, the heap and the words of memory. A missing entry of `dependents` is
an empty list. -/
structure HookManager where
  libs : AList fun _ : Handle => Addr
  dependents : Handle → List Addr
  hookedSymbols : Addr → Nat → Option SymId
  infos : Addr → Option LibInfo
  symbols : SymId → HookedSymbol
  nextSymbol : SymId
  hooks : HookId → Option HookInstance
  nextHook : HookId
  mem : Addr → Nat

inductive HookError where
  | noSuchLib
  | noSuchSymbol
  deriving DecidableEq, Repr

def HookError.what : HookError → String
  | noSuchLib => "No such lib registered"
  | noSuchSymbol => "No such symbol"

namespace HookManager

/-- The manager when the program starts. -/
def init (mem : Addr → Nat) : HookManager where
  libs := ∅
  dependents := fun _ => []
  hookedSymbols := fun _ _ => none
  infos := fun _ => none
  symbols := fun _ => { lib := 0, symbolIndex := 0 }
  nextSymbol := 0
  hooks := fun _ => none
  nextHook := 0
  mem := mem

/-! ## Libraries -/

/-- The addresses of the `LibInfo` objects that are in use. -/
def addrs (s : HookManager) : List Addr := s.libs.entries.map Sigma.snd

/-- The address of a new `LibInfo`: the one the allocator prefers, unless that is in use. -/
def alloc (s : HookManager) (a : Addr) : Addr :=
  if a ∈ s.addrs then s.addrs.foldr Nat.max 0 + 1 else a

def pushDependents (a : Addr) (deps : List Handle) (dependents : Handle → List Addr) :
    Handle → List Addr :=
  deps.foldl (fun m dep => Function.update m dep (m dep ++ [a])) dependents

/-- The part of `addLibrary` that enters the library. -/
@[simps]
def register (p : Process) (s : HookManager) (handle : Handle) (a : Addr) : HookManager :=
  { s with
    libs := s.libs.insert handle a
    infos := Function.update s.infos a
      (some { handle := handle, dependencies := (p.image handle).needed })
    dependents := pushDependents a (p.image handle).needed s.dependents }

def addLibrary (p : Process) (s : HookManager) (handle : Handle) (addr : Addr) : HookManager :=
  if handle ∈ s.libs then s else s.register p handle (s.alloc addr)

def eraseDependents (a : Addr) (deps : List Handle) (dependents : Handle → List Addr) :
    Handle → List Addr :=
  deps.foldl (fun m dep => Function.update m dep ((m dep).filter (· ≠ a))) dependents

/-- The part of `removeLibrary` that takes the library out. -/
@[simps]
def unregister (s : HookManager) (handle : Handle) (a : Addr) (dependencies : List Handle) :
    HookManager :=
  { s with
    libs := s.libs.erase handle
    infos := Function.update s.infos a none
    dependents := eraseDependents a dependencies s.dependents }

def removeLibrary (s : HookManager) (handle : Handle) : Option HookManager :=
  match s.libs.lookup handle with
  | none => some s
  | some a => (s.infos a).map fun info => s.unregister handle a info.dependencies

/-! ## Creating hooks -/

/-- `LibInfo::setHook` with an index. -/
def setHook (s : HookManager) (a : Addr) (symbolIndex : Nat) (hook : SymId) :
    Option HookManager := do
  let info ← s.infos a
  let hooked := Function.update info.hookedSymbols symbolIndex (some hook)
  some { s with infos := Function.update s.infos a (some { info with hookedSymbols := hooked }) }

/-- `LibInfo::setHook` with a name. -/
def setHookByName (p : Process) (name : String) (hook : SymId) (s : HookManager) (a : Addr) :
    Option HookManager := do
  let info ← s.infos a
  s.setHook a ((p.image info.handle).getSymbolIndex name) hook

/-- The part of `getOrCreateHookSymbol` that makes a new symbol. -/
def createHookSymbol (p : Process) (s : HookManager) (lib : Handle) (a : Addr)
    (symbolIndex : Nat) : Option (SymId × HookManager) := do
  let hook := s.nextSymbol
  let s := { s with
    hookedSymbols := Function.update s.hookedSymbols a
      (Function.update (s.hookedSymbols a) symbolIndex (some hook))
    symbols := Function.update s.symbols hook { lib := a, symbolIndex := symbolIndex }
    nextSymbol := hook + 1 }
  let s ← s.setHook a symbolIndex hook
  let name ← (p.image lib).getSymbolName symbolIndex
  let s ← Runs.run (setHookByName p name hook) s (s.dependents lib)
  some (hook, s)

def getOrCreateHookSymbol (p : Process) (s : HookManager) (lib : Handle) (symbolIndex : Nat) :
    Option (Except HookError (SymId × HookManager)) :=
  match s.libs.lookup lib with
  | none => some (.error .noSuchLib)
  | some a =>
    match s.hookedSymbols a symbolIndex with
    | some hook => some (.ok (hook, s))
    | none => (s.createHookSymbol p lib a symbolIndex).map .ok

/-- The part of `createHook` that links the new hook. -/
def linkHook (s : HookManager) (symbol : SymId) (replacement : Nat) (orig : Addr) :
    Option (HookId × HookManager) := do
  let ret := s.nextHook
  let sym := s.symbols symbol
  let hook : HookInstance := { symbol := symbol, replacement := replacement, orig := orig }
  match sym.firstHook, sym.lastHook with
  | none, _ =>
    some (ret, { s with
      symbols := Function.update s.symbols symbol
        { sym with firstHook := some ret, lastHook := some ret }
      hooks := Function.update s.hooks ret (some hook)
      nextHook := ret + 1 })
  | some _, none =>
    some (ret, { s with
      symbols := Function.update s.symbols symbol { sym with lastHook := some ret }
      hooks := Function.update s.hooks ret (some hook)
      nextHook := ret + 1 })
  | some _, some last => do
    let parent ← s.hooks last
    some (ret, { s with
      symbols := Function.update s.symbols symbol { sym with lastHook := some ret }
      hooks := Function.update (Function.update s.hooks last
        (some { parent with child := some ret })) ret (some { hook with parent := some last })
      nextHook := ret + 1
      mem := Function.update s.mem orig parent.replacement })

def createHook (p : Process) (s : HookManager) (lib : Handle) (symbolIndex : Nat)
    (replacement : Nat) (orig : Addr) : Option (Except HookError (HookId × HookManager)) := do
  match ← s.getOrCreateHookSymbol p lib symbolIndex with
  | .error e => some (.error e)
  | .ok (symbol, s) => (s.linkHook symbol replacement orig).map .ok

def createHookByName (p : Process) (s : HookManager) (lib : Handle) (name : String)
    (replacement : Nat) (orig : Addr) : Option (Except HookError (HookId × HookManager)) :=
  if lib ∈ s.libs then
    let symIndex := (p.image lib).getSymbolIndex name
    if symIndex = Image.noIndex then some (.error .noSuchSymbol)
    else s.createHook p lib symIndex replacement orig
  else some (.error .noSuchLib)

/-! ## Deleting hooks -/

/-- The replacement of a hook's parent, or the original of the symbol if it has no parent. -/
def callee (s : HookManager) (symbol : SymId) (parent : Option HookId) : Option Nat :=
  match parent with
  | some q => (s.hooks q).map HookInstance.replacement
  | none => some (s.symbols symbol).original

/-- The part of `deleteHook` for the child of the hook. -/
def relinkChild (s : HookManager) (hook : HookInstance) : Option HookManager :=
  match hook.child with
  | none => some s
  | some c => do
    let child ← s.hooks c
    let value ← s.callee hook.symbol hook.parent
    some { s with
      hooks := Function.update s.hooks c (some { child with parent := hook.parent })
      mem := Function.update s.mem child.orig value }

/-- The part of `deleteHook` for the parent of the hook. -/
def relinkParent (s : HookManager) (hook : HookInstance) : Option HookManager :=
  match hook.parent with
  | none => some s
  | some q => do
    let parent ← s.hooks q
    some { s with hooks := Function.update s.hooks q (some { parent with child := hook.child }) }

def deleteHook (s : HookManager) (h : HookId) : Option HookManager := do
  let hook ← s.hooks h
  let s ← s.relinkChild hook
  let s ← s.relinkParent hook
  let sym := s.symbols hook.symbol
  some { s with
    symbols := Function.update s.symbols hook.symbol { sym with
      firstHook := if sym.firstHook = some h then hook.child else sym.firstHook
      lastHook := if sym.lastHook = some h then hook.parent else sym.lastHook }
    hooks := Function.update s.hooks h none }

/-! ## Applying hooks -/

/-- What `applyHooks` writes to the slots of a symbol; `0` if it leaves them as they are. -/
def redirection (s : HookManager) (symbol : SymId) : Option Nat :=
  match (s.symbols symbol).lastHook with
  | none => some (s.symbols symbol).original
  | some last => do
    let hook ← s.hooks last
    some (if hook.replacement ≠ 0 then hook.replacement else (s.symbols symbol).original)

/-- The end of the loop body, where the original of a symbol becomes known. -/
def recordOriginal (s : HookManager) (symbol : SymId) (original : Nat) : Option HookManager :=
  let sym := s.symbols symbol
  if original ≠ 0 ∧ sym.original = 0 then
    let s := { s with
      symbols := Function.update s.symbols symbol { sym with original := original } }
    match sym.firstHook with
    | none => some s
    | some first => do
      let hook ← s.hooks first
      some { s with mem := Function.update s.mem hook.orig original }
  else some s

/-- What is read from a slot through an `ElfW(Word)*`: an `ElfW(Word)` has 32 bits. -/
def elfWord (value : Nat) : Nat := value % UInt32.size

/-- The loop body of `LibInfo::applyHooks`. The slot is written as a `size_t`. -/
def applyReloc (a : Addr) (s : HookManager) (r : Reloc) : Option HookManager := do
  let info ← s.infos a
  match info.hookedSymbols r.sym with
  | none => some s
  | some symbol =>
    let replacement ← s.redirection symbol
    if replacement = 0 ∨ ¬r.type.supported then some s
    else
      recordOriginal { s with mem := Function.update s.mem r.addr replacement } symbol
        (elfWord (s.mem r.addr))

/-- `LibInfo::applyHooks`. -/
def applyLibHooks (p : Process) (s : HookManager) (h : Handle) : Option HookManager :=
  match s.libs.lookup h with
  | none => some s
  | some a => do
    let s ← Runs.run (applyReloc a) s (p.image h).rel
    Runs.run (applyReloc a) s (p.image h).pltrel

/-- The order in which `applyHooks` goes through `libs`, a hash map. -/
def iteration (s : HookManager) (order : List Handle) : List Handle :=
  if order.isPerm s.libs.keys then order else s.libs.keys

def applyHooks (p : Process) (s : HookManager) (order : List Handle) : Option HookManager :=
  Runs.run (applyLibHooks p) s (s.iteration order)

end HookManager

/-! ## Calls -/

/-- The calls of the manager, with what they leave to the environment: where the new `LibInfo` is
and in which order the libraries are visited. -/
inductive Call where
  | addLibrary (handle : Handle) (addr : Addr)
  | removeLibrary (handle : Handle)
  | createHook (lib : Handle) (symbolIndex replacement : Nat) (orig : Addr)
  | createHookByName (lib : Handle) (name : String) (replacement : Nat) (orig : Addr)
  | deleteHook (hook : HookId)
  | applyHooks (order : List Handle)
  deriving DecidableEq, Repr

/-- A call that throws leaves the state as it is. -/
def afterCreate (s : HookManager) (result : Except HookError (HookId × HookManager)) :
    HookManager :=
  match result with
  | .error _ => s
  | .ok (_, s') => s'

def step (p : Process) (s : HookManager) : Call → Option HookManager
  | .addLibrary handle addr => some (s.addLibrary p handle addr)
  | .removeLibrary handle => s.removeLibrary handle
  | .createHook lib symbolIndex replacement orig =>
    (s.createHook p lib symbolIndex replacement orig).map (afterCreate s)
  | .createHookByName lib name replacement orig =>
    (s.createHookByName p lib name replacement orig).map (afterCreate s)
  | .deleteHook hook => s.deleteHook hook
  | .applyHooks order => s.applyHooks p order

end McpeLauncher.Hook
