import McpeLauncher.Linker.SoInfo

/-!
# Lookups in lists of libraries

`soinfo_do_lookup` searches a list of libraries for a symbol. Unless a library of the list needs the
other way, it reads the GNU hash tables by itself, without `find_symbol_by_name`: names are compared
as bytes within the string table, and the version is looked up when the first hash fits.
-/

namespace McpeLauncher.Linker
open Elf

variable {c : ElfClass}

namespace SoInfo

variable (si : SoInfo c)

/-- `needs_sysv_lookup`. Without a GNU hash table there is no Bloom filter. -/
def needsSysvLookup : Bool := !si.isGnuHash || !si.symbols.isEmpty

/-- The test of a symbol whose hash fits. -/
def fastIsSymbol (name : Name) (verneed : BitVec 16) (symIdx : Nat) : Bool :=
  let sym := si.symtab symIdx
  checkSymbolVersion si.versym symIdx verneed &&
    sym.stName + name.length + 1 ≤ si.strtab.length &&
    (si.strtab.drop sym.stName).take (name.length + 1) = name ++ [0] &&
    isSymbolGlobalAndDefined sym

/-- `verneed`, which is looked up when it is needed for the first time. -/
def calculateVerneed (vi : Option VersionInfo) (verneed : BitVec 16) (calculatedVerneed : Bool) :
    Option (BitVec 16) :=
  if vi.isSome && !calculatedVerneed then si.findVerdefVersionIndex vi else some verneed

/-- The loop over a chain in `soinfo_do_lookup_impl`. -/
def fastChainLoop (name : Name) (vi : Option VersionInfo) (hash : BitVec 32) :
    (fuel : Nat) → (symIdx : Nat) → (verneed : BitVec 16) → (calculatedVerneed : Bool) →
    Option (Option Nat)
  | 0, _, _, _ => none
  | fuel + 1, symIdx, verneed, calculatedVerneed => do
    let chainValue := si.gnuChain symIdx
    let (found, verneed, calculatedVerneed) ←
      if chainValue >>> 1 = hash >>> 1 then do
        let verneed ← si.calculateVerneed vi verneed calculatedVerneed
        some (si.fastIsSymbol name verneed symIdx, verneed, vi.isSome || calculatedVerneed)
      else some (false, verneed, calculatedVerneed)
    if found then return some symIdx
    else if chainValue &&& 1 = 0 then
      fastChainLoop name vi hash fuel (symIdx + 1) verneed calculatedVerneed
    else return none

/-- What `soinfo_do_lookup_impl` does with a library that has a GNU hash table. -/
def fastLookup (name : Name) (vi : Option VersionInfo) : Option (Option Nat) :=
  let hash := calculateGnuHash name
  if si.bloomTest hash then
    let symIdx := si.gnuBucket (hash.toNat % si.gnuNbucket)
    if symIdx ≠ 0 then si.fastChainLoop name vi hash maxSymbols symIdx kVersymNotNeeded false
    else some none
  else some none

end SoInfo

/-- `soinfo_do_lookup_impl`. -/
def soinfoDoLookupImpl (isGeneral : Bool) (name : Name) (vi : Option VersionInfo) :
    List (SoInfo c) → Option (Option (SoInfo c × SoInfo.Found c))
  | [] => some none
  | lib :: libs =>
    if isGeneral && lib.needsSysvLookup then do
      let found ← lib.findSymbolByName name vi
      if found.sym.isSome then some (some (lib, found)) else soinfoDoLookupImpl isGeneral name vi libs
    else do
      match ← lib.fastLookup name vi with
      | some symIdx => some (some (lib, ⟨some (lib.symtab symIdx), none⟩))
      | none => soinfoDoLookupImpl isGeneral name vi libs

/-- `libs_[0]` is for a library that is searched first, and empty otherwise. -/
structure SymbolLookupList (c : ElfClass) where
  symbolic : Option (SoInfo c)
  libs : List (SoInfo c)
  slowPathCount : Nat

namespace SymbolLookupList

/-- The list for one library. -/
def ofLib (tracing : Bool) (si : SoInfo c) : SymbolLookupList c :=
  ⟨none, [si], tracing.toNat + si.needsSysvLookup.toNat⟩

/-- The list for two groups. -/
def ofGroups (tracing : Bool) (globalGroup localGroup : List (SoInfo c)) : SymbolLookupList c :=
  let count := globalGroup.foldl (fun n si => n + si.needsSysvLookup.toNat) tracing.toNat
  ⟨none, globalGroup ++ localGroup,
    localGroup.foldl (fun n si => n + si.needsSysvLookup.toNat) count⟩

def setDtSymbolicLib (l : SymbolLookupList c) (lib : Option (SoInfo c)) : SymbolLookupList c :=
  let count := l.slowPathCount - (l.symbolic.map fun si => si.needsSysvLookup.toNat).getD 0
  { l with
    symbolic := lib
    slowPathCount := count + (lib.map fun si => si.needsSysvLookup.toNat).getD 0 }

/-- From `begin` to `end`. -/
def searched (l : SymbolLookupList c) : List (SoInfo c) := l.symbolic.toList ++ l.libs

def needsSlowPath (l : SymbolLookupList c) : Bool := 0 < l.slowPathCount

end SymbolLookupList

def soinfoDoLookup (name : Name) (vi : Option VersionInfo) (l : SymbolLookupList c) :
    Option (Option (SoInfo c × SoInfo.Found c)) :=
  soinfoDoLookupImpl l.needsSlowPath name vi l.searched

/-! ## The plain search -/

/-- The first library in which `find_symbol_by_name` finds the symbol. -/
def findFirst (name : Name) (vi : Option VersionInfo) :
    List (SoInfo c) → Option (Option (SoInfo c × SoInfo.Found c))
  | [] => some none
  | lib :: libs => do
    let found ← lib.findSymbolByName name vi
    if found.sym.isSome then some (some (lib, found)) else findFirst name vi libs

namespace SoInfo

/-- What `prelink_image` checks and what a linker makes: the version definitions can be read, the
string table ends with a terminator, and the names of the symbols begin in it. -/
structure Valid (si : SoInfo c) : Prop where
  verdefs : ∀ v ∈ si.verdefs, v.vdVersion = 1 ∧ (v.base = false → v.vdCnt ≠ 0)
  terminated : si.strtab.getLast? = some 0
  names : ∀ n, (si.symtab n).stName < si.strtab.length

variable {si : SoInfo c}

theorem Valid.findVerdefVersionIndex (hvalid : si.Valid) (vi : Option VersionInfo) :
    ∃ verneed, si.findVerdefVersionIndex vi = some verneed := by
  cases vi with
  | none => exact ⟨_, rfl⟩
  | some vi =>
    have hgo : ∀ verdefs : List Verdef, (∀ v ∈ verdefs, v.vdVersion = 1 ∧ (v.base = false → v.vdCnt ≠ 0)) →
        ∃ verneed, SoInfo.findVerdefVersionIndex.go vi verdefs = some verneed := by
      intro verdefs hverdefs
      induction verdefs with
      | nil => exact ⟨_, rfl⟩
      | cons v verdefs ih =>
        obtain ⟨⟨hversion, hcnt⟩, hrest⟩ := List.forall_mem_cons.mp hverdefs
        rw [SoInfo.findVerdefVersionIndex.go, if_neg (not_not.mpr hversion)]
        split
        · exact ih hrest
        · next hbase =>
          rw [if_neg (hcnt (Bool.eq_false_iff.mpr hbase))]
          split
          · exact ⟨_, rfl⟩
          · exact ih hrest
    exact hgo _ hvalid.verdefs

/-- Every name ends in the string table. -/
theorem Valid.getString (hvalid : si.Valid) (n : Nat) : si.getString (si.symtab n).stName =
    some (Terminated.upTo 0 (si.strtab.drop (si.symtab n).stName)) := by
  have hlt := hvalid.names n
  have hmem : 0 ∈ si.strtab.drop (si.symtab n).stName := by
    refine List.mem_of_getLast? ?_
    rw [List.getLast?_drop, if_neg (Nat.not_le.mpr hlt), hvalid.terminated]
  rw [SoInfo.getString, if_pos hlt, if_pos hmem]

/-- The bytes of a name are compared within the string table, with the terminator. -/
theorem take_eq_iff {name : Name} (hname : 0 ∉ name) {text : List UInt8} (htext : 0 ∈ text) :
    (name.length + 1 ≤ text.length ∧ text.take (name.length + 1) = name ++ [0]) ↔
      Terminated.upTo 0 text = name := by
  obtain ⟨rest, hrest⟩ := Terminated.exists_upTo_append htext
  constructor
  · rintro ⟨-, htake⟩
    have hsplit := List.take_append_drop (name.length + 1) text
    rw [htake, List.append_assoc, List.singleton_append] at hsplit
    rw [← hsplit, Terminated.upTo_append_terminator, Terminated.upTo_of_not_mem hname]
  · intro h
    rw [h] at hrest
    rw [hrest]
    exact ⟨by simp, List.take_length_add_append 1⟩

/-- Both tests of a symbol agree. -/
theorem Valid.isSymbol_eq (hvalid : si.Valid) {name : Name} (hname : 0 ∉ name) (verneed : BitVec 16)
    (n : Nat) : si.isSymbol name verneed n = some (si.fastIsSymbol name verneed n) := by
  have hlt := hvalid.names n
  have hmem : 0 ∈ si.strtab.drop (si.symtab n).stName := by
    refine List.mem_of_getLast? ?_
    rw [List.getLast?_drop, if_neg (Nat.not_le.mpr hlt), hvalid.terminated]
  have hiff := take_eq_iff hname hmem
  rw [List.length_drop] at hiff
  have hlength : (si.symtab n).stName + name.length + 1 ≤ si.strtab.length ↔
      name.length + 1 ≤ si.strtab.length - (si.symtab n).stName := by omega
  rw [isSymbol, fastIsSymbol]
  cases checkSymbolVersion si.versym n verneed with
  | false => rfl
  | true =>
    rw [if_pos rfl, hvalid.getString]
    simp only [Option.bind_eq_bind, Option.bind_some, Option.pure_def, Bool.true_and, ← hiff,
      hlength, Bool.decide_and]

theorem hash_fits_iff (chainValue hash : BitVec 32) :
    (chainValue ^^^ hash) >>> 1 = 0 ↔ chainValue >>> 1 = hash >>> 1 := by
  rw [BitVec.ushiftRight_xor_distrib]
  exact BitVec.xor_eq_zero_iff

/-- The version that is looked up when it is needed is the one that is looked up at once. -/
theorem Valid.fastChainLoop_eq (hvalid : si.Valid) {name : Name} (hname : 0 ∉ name)
    {vi : Option VersionInfo} {version : BitVec 16}
    (hversion : si.findVerdefVersionIndex vi = some version) (hash : BitVec 32) (fuel : Nat) :
    ∀ (n : Nat) (verneed : BitVec 16) (calculated : Bool),
      (calculated = true → verneed = version) →
      (vi = none → verneed = version) →
      si.fastChainLoop name vi hash fuel n verneed calculated =
        si.gnuChainLoop name hash version fuel n := by
  induction fuel with
  | zero => intros; rfl
  | succ fuel ih =>
    intro n verneed calculated hcalculated hnone
    rw [fastChainLoop, gnuChainLoop, gnuIsSymbol]
    simp only [hash_fits_iff]
    split
    · next hfits =>
      have hneeded : si.calculateVerneed vi verneed calculated = some version := by
        rw [calculateVerneed]
        split
        · exact hversion
        · next hnot =>
          refine congrArg some ?_
          cases vi with
          | none => exact hnone rfl
          | some vi => exact hcalculated (by simpa using hnot)
      simp only [hneeded, hvalid.isSymbol_eq hname, Option.bind_eq_bind, Option.bind_some]
      split
      · rfl
      · split
        · exact ih _ _ _ (fun _ => rfl) fun _ => rfl
        · rfl
    · simp only [Option.bind_eq_bind, Option.bind_some, Bool.false_eq_true, if_false]
      split
      · exact ih _ _ _ hcalculated hnone
      · rfl

/-- **Both ways into a GNU hash table agree.** -/
theorem Valid.fastLookup_eq (hvalid : si.Valid) {name : Name} (hname : 0 ∉ name)
    (vi : Option VersionInfo) : si.fastLookup name vi = si.gnuLookup name vi := by
  obtain ⟨version, hversion⟩ := hvalid.findVerdefVersionIndex vi
  have hnone : vi = none → kVersymNotNeeded = version := by
    rintro rfl
    exact Option.some.inj hversion
  rw [fastLookup, gnuLookup]
  split
  · simp only [ne_eq, ite_not, hversion, Option.bind_eq_bind, Option.bind_some]
    split
    · rfl
    · exact hvalid.fastChainLoop_eq hname hversion _ _ _ _ _ (fun h => Bool.noConfusion h) hnone
  · rfl

/-- A library without symbols of the launcher is searched in its table. -/
theorem findSymbolByName_of_gnuHash (hgnu : si.isGnuHash = true) (hsymbols : si.symbols = [])
    (name : Name) (vi : Option VersionInfo) : si.findSymbolByName name vi =
      (si.gnuLookup name vi).map fun n => ⟨n.map si.symtab, none⟩ := by
  rw [findSymbolByName, hsymbols, List.lookup_nil, tableLookup, if_pos hgnu]
  simp only [Option.map_map]
  rfl

theorem needsSysvLookup_eq_false (h : si.needsSysvLookup = false) :
    si.isGnuHash = true ∧ si.symbols = [] := by
  simpa [needsSysvLookup] using h

end SoInfo

/-- `soinfo_do_lookup_impl` may skip `find_symbol_by_name` where no library needs it. -/
theorem soinfoDoLookupImpl_eq {name : Name} (hname : 0 ∉ name) (vi : Option VersionInfo)
    {isGeneral : Bool} {libs : List (SoInfo c)} (hvalid : ∀ lib ∈ libs, lib.Valid)
    (hfast : isGeneral = false → ∀ lib ∈ libs, lib.needsSysvLookup = false) :
    soinfoDoLookupImpl isGeneral name vi libs = findFirst name vi libs := by
  induction libs with
  | nil => rfl
  | cons lib libs ih =>
    obtain ⟨hlib, hlibs⟩ := List.forall_mem_cons.mp hvalid
    have hrest := ih hlibs fun h lib hmem => hfast h lib (.tail _ hmem)
    rw [soinfoDoLookupImpl, findFirst]
    split
    · rw [hrest]
    · next hnot =>
      have hneeds : lib.needsSysvLookup = false := by
        cases isGeneral with
        | false => exact hfast rfl lib (.head _)
        | true => simpa using hnot
      obtain ⟨hgnu, hsymbols⟩ := SoInfo.needsSysvLookup_eq_false hneeds
      rw [hlib.fastLookup_eq hname, SoInfo.findSymbolByName_of_gnuHash hgnu hsymbols, hrest]
      cases lib.gnuLookup name vi with
      | none => rfl
      | some n => cases n <;> rfl

namespace SymbolLookupList

/-- The count of the libraries that need `find_symbol_by_name`, and of tracing. -/
def Counts (tracing : Bool) (l : SymbolLookupList c) : Prop :=
  l.slowPathCount = tracing.toNat + l.searched.countP SoInfo.needsSysvLookup

variable {tracing : Bool} {l : SymbolLookupList c}

theorem foldl_needsSysvLookup (libs : List (SoInfo c)) (n : Nat) :
    libs.foldl (fun n si => n + si.needsSysvLookup.toNat) n =
      n + libs.countP SoInfo.needsSysvLookup := by
  induction libs generalizing n with
  | nil => rfl
  | cons si libs ih =>
    rw [List.foldl_cons, ih, List.countP_cons]
    cases si.needsSysvLookup <;> simp [Nat.add_assoc, Nat.add_comm 1]

theorem counts_ofGroups (tracing : Bool) (globalGroup localGroup : List (SoInfo c)) :
    (ofGroups tracing globalGroup localGroup).Counts tracing := by
  simp only [Counts, ofGroups, searched, foldl_needsSysvLookup, Option.toList_none, List.nil_append,
    List.countP_append, Nat.add_assoc]

theorem countP_toList (lib : Option (SoInfo c)) : lib.toList.countP SoInfo.needsSysvLookup =
    (lib.map fun si => si.needsSysvLookup.toNat).getD 0 := by
  cases lib with
  | none => rfl
  | some si =>
    rw [Option.toList_some, List.countP_singleton, Option.map_some, Option.getD_some]
    cases si.needsSysvLookup <;> rfl

/-- The count follows the library that is searched first. -/
theorem Counts.setDtSymbolicLib (h : l.Counts tracing) (lib : Option (SoInfo c)) :
    (l.setDtSymbolicLib lib).Counts tracing := by
  rw [Counts, searched, List.countP_append, countP_toList] at h ⊢
  simp only [SymbolLookupList.setDtSymbolicLib]
  omega

theorem Counts.needsSysvLookup (h : l.Counts tracing) (hslow : l.needsSlowPath = false) :
    ∀ lib ∈ l.searched, lib.needsSysvLookup = false := by
  have hzero : l.slowPathCount = 0 := by simpa [needsSlowPath] using hslow
  have hcount : l.searched.countP SoInfo.needsSysvLookup = 0 := by rw [Counts] at h; omega
  intro lib hlib
  exact Bool.eq_false_iff.mpr (List.countP_eq_zero.mp hcount lib hlib)

/-- The library that is searched first is the one of the last call. -/
theorem foldl_setDtSymbolicLib (h : l.Counts tracing) (calls : List (Option (SoInfo c))) :
    (calls.foldl SymbolLookupList.setDtSymbolicLib l).Counts tracing ∧
      (calls.foldl SymbolLookupList.setDtSymbolicLib l).searched =
        (calls.getLastD l.symbolic).toList ++ l.libs := by
  induction calls generalizing l with
  | nil => exact ⟨h, rfl⟩
  | cons lib calls ih =>
    rw [List.foldl_cons, List.getLastD_cons]
    exact ih (h.setDtSymbolicLib lib)

end SymbolLookupList

open SymbolLookupList in
/-- **The fast search agrees with the plain one**: while the libraries of the groups are linked, each
with itself in front if it says so, a symbol is found in the first library in which
`find_symbol_by_name` finds it. -/
theorem soinfoDoLookup_eq (tracing : Bool) {globalGroup localGroup : List (SoInfo c)}
    {calls : List (Option (SoInfo c))} (hgroups : ∀ lib ∈ globalGroup ++ localGroup, lib.Valid)
    (hcalls : ∀ lib, some lib ∈ calls → lib.Valid) {name : Name} (hname : 0 ∉ name)
    (vi : Option VersionInfo) :
    soinfoDoLookup name vi (calls.foldl setDtSymbolicLib (ofGroups tracing globalGroup localGroup)) =
      findFirst name vi ((calls.getLastD none).toList ++ (globalGroup ++ localGroup)) := by
  obtain ⟨hcounts, hsearched⟩ :=
    foldl_setDtSymbolicLib (counts_ofGroups tracing globalGroup localGroup) calls
  have hlast : (calls.getLastD none).toList ++ (globalGroup ++ localGroup) =
      (calls.foldl setDtSymbolicLib (ofGroups tracing globalGroup localGroup)).searched :=
    hsearched.symm
  rw [soinfoDoLookup, hlast]
  refine soinfoDoLookupImpl_eq hname vi (fun lib hlib => ?_) hcounts.needsSysvLookup
  rw [← hlast, List.mem_append] at hlib
  rcases hlib with hfirst | hlib
  · refine hcalls lib ?_
    cases calls with
    | nil => cases hfirst
    | cons call calls =>
      rw [List.getLastD_cons, Option.mem_toList] at hfirst
      rw [← hfirst]
      exact List.getLastD_mem_cons
  · exact hgroups lib hlib

/-- A library with one symbol, `f`. -/
def oneSymbolLib : SoInfo .ELF64 where
  loadBias := 0x1000
  strtab := [0, 102, 0]
  symtab _ := ⟨1, 0x12, 1, 0x40⟩
  versym := none
  verdefs := []
  isGnuHash := true
  gnuNbucket := 1
  gnuMaskwords := 0
  gnuShift2 := 6
  gnuBloomFilter _ := BitVec.allOnes _
  gnuBucket _ := 1
  gnuChain _ := calculateGnuHash [102] ||| 1
  nbucket := 0
  bucket := none
  chain _ := 0
  symbols := []

theorem oneSymbolLib_valid : oneSymbolLib.Valid where
  verdefs := List.forall_mem_nil _
  terminated := rfl
  names _ := Nat.one_lt_succ_succ 1

open SymbolLookupList in
theorem soinfoDoLookup_oneSymbolLib :
    soinfoDoLookup [102] none
      ([some oneSymbolLib, none].foldl setDtSymbolicLib (ofGroups false [] [oneSymbolLib])) =
      findFirst [102] none [oneSymbolLib] :=
  soinfoDoLookup_eq false (List.forall_mem_singleton.mpr oneSymbolLib_valid)
    (fun lib h => by
      obtain rfl : lib = oneSymbolLib := by simpa using h
      exact oneSymbolLib_valid) (by decide) none

end McpeLauncher.Linker
