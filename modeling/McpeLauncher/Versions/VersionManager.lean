import McpeLauncher.Lib.Runs
import McpeLauncher.Lib.TreeMaps

/-!
# The installed versions

`VersionManager` of the user interface. An installed version owns one code per ABI; the versions are
kept in a map from codes to version objects, in each object's hash from ABIs to codes, and in a
settings file with one group per directory. Every change writes the file anew.

Version objects are never deleted. They are numbered in the order in which they are made, and a
pointer to one is its number.
-/

namespace McpeLauncher.Versions

/-- `QHash<QString, int>`, as the list of its entries in the order in which they are iterated. -/
abbrev Codes := List (String × Int)

/-- An insertion into a hash may move all of its entries. -/
structure QHashLayout where
  rehash : Codes → Codes
  perm : ∀ codes, (rehash codes).Perm codes

def QHashLayout.insert (H : QHashLayout) (codes : Codes) (abi : String) (code : Int) : Codes :=
  H.rehash ((abi, code) :: codes.filter (·.1 ≠ abi))

structure VersionInfo where
  directory : String
  versionName : String
  codes : Codes

namespace VersionInfo

def empty : VersionInfo := ⟨"", "", []⟩

/-- The codes without their ABIs. -/
def values (v : VersionInfo) : List Int := v.codes.map (·.2)

def versionCode (v : VersionInfo) : Int := v.values.headD (-1)

end VersionInfo

/-- A group of the settings. The former format has a code and no array of codes. -/
structure VersionGroup where
  versionName : String
  versionCode : Option Int
  codes : List (Int × String)

/-- The map `m_versions` with the objects it points to, the settings file, and the files:
`disk directory abi` if the directory has the game's library for that ABI. -/
structure VersionManager where
  versions : Std.TreeMap Int Nat
  info : Nat → VersionInfo
  used : Nat
  settings : Std.TreeMap String VersionGroup
  disk : String → String → Bool

namespace VersionManager

/-- The first start, with no settings. -/
def initial (disk : String → String → Bool) : VersionManager := ⟨∅, fun _ => .empty, 0, ∅, disk⟩

/-! ## The settings file -/

def group (v : VersionInfo) : VersionGroup :=
  ⟨v.versionName, some v.versionCode, v.codes.map Prod.swap⟩

def saveVersions (s : VersionManager) : VersionManager :=
  { s with settings := s.versions.toList.foldl (fun settings (_, ver) =>
      settings.insert (s.info ver).directory (group (s.info ver))) ∅ }

/-- The version of a group with an array of codes. -/
def ofGroup (H : QHashLayout) (directory : String) (g : VersionGroup) : VersionInfo where
  directory := directory
  versionName := g.versionName
  codes := g.codes.foldl (fun codes (code, arch) => H.insert codes arch code) []

def loadCodes (H : QHashLayout) (s : VersionManager) (directory : String) (g : VersionGroup) :
    VersionManager :=
  { s with
    versions := g.codes.foldl (fun versions p => versions.insert p.1 s.used) s.versions
    info := Function.update s.info s.used (ofGroup H directory g)
    used := s.used + 1 }

/-- The ABIs whose library exists get the code. -/
def migrateAbis (H : QHashLayout) (abis : List String) (disk : String → Bool) (code : Int)
    (codes : Codes) : Codes :=
  abis.foldl (fun codes abi => if disk abi then H.insert codes abi code else codes) codes

/-- A group of the former format. -/
def loadMigrated (H : QHashLayout) (abis : List String) (s : VersionManager) (directory : String)
    (g : VersionGroup) (code : Int) : VersionManager :=
  match s.versions[code]? with
  | some ver =>
    { s with info := Function.update s.info ver ⟨directory, g.versionName,
        migrateAbis H abis (s.disk directory) code (s.info ver).codes⟩ }
  | none =>
    { s with
      versions := s.versions.insert code s.used
      info := Function.update s.info s.used ⟨directory, g.versionName,
        migrateAbis H abis (s.disk directory) code []⟩
      used := s.used + 1 }

def loadGroup (H : QHashLayout) (abis : List String) (s : VersionManager)
    (p : String × VersionGroup) : VersionManager :=
  if p.2.codes ≠ [] then loadCodes H s p.1 p.2
  else match p.2.versionCode with
    | some code => loadMigrated H abis s p.1 p.2 code
    | none => s

/-- `loadVersions` in a new process. -/
def loadVersions (H : QHashLayout) (abis : List String) (s : VersionManager) : VersionManager :=
  s.settings.toList.foldl (loadGroup H abis) { initial s.disk with settings := s.settings }

/-! ## Changes -/

/-- The first version in the map that has the directory. -/
def findDirectory (s : VersionManager) (directory : String) : Option Nat :=
  (s.versions.toList.map (·.2)).find? fun ver => (s.info ver).directory = directory

/-- `m_versions[versionCode]`, with what is put there if it was null. -/
def findOrCreate (s : VersionManager) (directory : String) (code : Int) : Nat × VersionManager :=
  match s.versions[code]? with
  | some ver => (ver, s)
  | none =>
    match s.findDirectory directory with
    | some ver => (ver, { s with versions := s.versions.insert code ver })
    | none => (s.used, { s with versions := s.versions.insert code s.used
                                info := Function.update s.info s.used .empty
                                used := s.used + 1 })

/-- The ABIs whose library exists, and that have no code yet, get the code. -/
def addAbis (H : QHashLayout) (abis : List String) (disk : String → Bool) (code : Int)
    (codes : Codes) : Codes :=
  abis.foldl (fun codes abi =>
    if codes.lookup abi = none ∧ disk abi then H.insert codes abi code else codes) codes

def addVersion (H : QHashLayout) (abis : List String) (s : VersionManager)
    (directory versionName : String) (code : Int) : VersionManager :=
  let (ver, s) := s.findOrCreate directory code
  saveVersions { s with info := Function.update s.info ver ⟨directory, versionName,
    addAbis H abis (s.disk directory) code (s.info ver).codes⟩ }

/-- `removeRecursively`. -/
def removeDirectory (s : VersionManager) (directory : String) : VersionManager :=
  { s with disk := fun d abi => s.disk d abi && d != directory }

def erase (s : VersionManager) (code : Int) : VersionManager :=
  { s with versions := s.versions.erase code }

/-- The loop of `removeVersion` over the codes, and whether it gets to its end. A code that is not
in the map has no value to compare with. -/
def removeCodes (ver : Nat) : List Int → VersionManager → Option (Bool × VersionManager)
  | [], s => some (true, s)
  | code :: codes, s =>
    match s.versions[code]? with
    | none => none
    | some val =>
      if val ≠ ver then some (false, s)
      else removeCodes ver codes ((s.removeDirectory (s.info ver).directory).erase code)

def removeVersion (s : VersionManager) (version : Option Nat) : Option VersionManager :=
  match version with
  | none => some s
  | some ver => do
    let (all, s) ← removeCodes ver (s.info ver).values s
    return if all then s.saveVersions else s

/-- The loop of the other `removeVersion` over the ABIs. -/
def removeAbis (ver : Nat) : List String → VersionManager → Option VersionManager
  | [], s => some s
  | abi :: abis, s =>
    match (s.info ver).codes.lookup abi with
    | none => removeAbis ver abis s
    | some code =>
      match s.versions[code]? with
      | none => none
      | some val => if val ≠ ver then removeAbis ver abis s else removeAbis ver abis (s.erase code)

/-- `removeVersion(version, abis)`. -/
def removeVersionAbis (s : VersionManager) (version : Option Nat) (abis : List String) :
    Option VersionManager :=
  match version with
  | none => some s
  | some ver => do return (← removeAbis ver abis s).saveVersions

def getAll (s : VersionManager) : List Nat :=
  s.versions.toList.filterMap fun (code, ver) =>
    if code = (s.info ver).versionCode then some ver else none

end VersionManager

end McpeLauncher.Versions
