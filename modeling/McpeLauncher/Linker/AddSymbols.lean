import McpeLauncher.Linker.Relocated

/-!
# Symbols for a linked library

`soinfo::add_symbols` puts symbols of the launcher in front of those of a library, and relocates the
library again by itself when it is linked. A linked library keeps every word whose symbol is not
found, so that only the calls of the library to its own and to the new symbols change.
-/

namespace McpeLauncher.Linker
open Elf PackedRelocs Assignments

variable {c : ElfClass}

namespace SoInfo

variable (si : SoInfo c)

/-- A symbol of the launcher at an address. -/
def newEntry (address : Addr c) : HookEntry c :=
  ⟨⟨0, BitVec.ofNat 8 (STB_GLOBAL <<< 4), 1, address - si.loadBias⟩, none⟩

/-- `symbols[name] = entry`. -/
def setSymbol (name : Name) (address : Addr c) : SoInfo c :=
  { si with symbols := (name, si.newEntry address) :: si.symbols.filter fun x => x.1 ≠ name }

/-- Null pointers are left out. -/
def addSymbol (x : Name × Addr c) : SoInfo c := if x.2 ≠ 0 then si.setSymbol x.1 x.2 else si

/-- The loop of `add_symbols`. -/
def addSymbols (symbols : List (Name × Addr c)) : SoInfo c := symbols.foldl addSymbol si

end SoInfo

namespace Relocator

/-- The library with the symbols, and with the search list that has nothing else. -/
def withSymbols (r : Relocator c) (tracing : Bool) (symbols : List (Name × Addr c)) :
    Relocator c :=
  let si := r.si.addSymbols symbols
  { r with si, lookupList := .ofLib tracing si }

/-- `add_symbols`: what is in memory then. The result of `relocate` is not looked at. -/
def addSymbols (r : Relocator c) (tracing slow : Bool) (t : RelocTables c)
    (symbols : List (Name × Addr c)) (words : Words c) (origs : Nat → Addr c) :
    Option (Words c) :=
  if r.isLinked then
    ((r.withSymbols tracing symbols).relocate slow t words origs).map fun x => x.2.words
  else some words

end Relocator

/-! ## The symbols of the library -/

namespace SoInfo

variable {si : SoInfo c} {name : Name} {vi : Option VersionInfo} {symbols : List (Name × Addr c)}

/-- The new address of a name. -/
def given (symbols : List (Name × Addr c)) (name : Name) : Option (Addr c) :=
  (symbols.filter fun x => x.2 ≠ 0).lookup name

/-- All but the symbols stays. -/
theorem exists_addSymbols (si : SoInfo c) (symbols : List (Name × Addr c)) :
    ∃ l, si.addSymbols symbols = { si with symbols := l } := by
  induction symbols generalizing si with
  | nil => exact ⟨si.symbols, rfl⟩
  | cons x symbols ih =>
    rw [addSymbols, List.foldl_cons, ← addSymbols, addSymbol]
    split
    · obtain ⟨l, hl⟩ := ih (si.setSymbol x.1 x.2)
      exact ⟨l, hl⟩
    · exact ih si

theorem Valid.addSymbols (hvalid : si.Valid) (symbols : List (Name × Addr c)) :
    (si.addSymbols symbols).Valid := by
  obtain ⟨l, hl⟩ := exists_addSymbols si symbols
  rw [hl]
  exact ⟨hvalid.verdefs, hvalid.terminated, hvalid.names⟩

end SoInfo
namespace Relocator

open SoInfo

variable {r : Relocator c} {t : RelocTables c} {gs : List (Group c)} {ks : List Nat}
  {symbols : List (Name × Addr c)} {tracing : Bool} {name : Name} {reloc : Rel c}

end Relocator

end McpeLauncher.Linker
