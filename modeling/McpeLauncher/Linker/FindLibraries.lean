import McpeLauncher.Linker.LoadedLibraries

/-!
# `dlopen`

`find_libraries` finds everything that a library needs, loads what is new, and links it as a group
with the library as its root. If anything fails, `find_library` unloads what has been loaded so far.
Whether a library can be found, read, loaded and linked is known from outside, at each call anew.
-/

namespace McpeLauncher.Linker

variable {ι : Type} [DecidableEq ι]

/-- The `DT_SONAME` of the libraries, and the names in their `DT_NEEDED` entries. -/
structure Files (ι : Type) where
  soname : ι → Option Name
  needed : ι → List Name

/-- What a call of `dlopen` comes upon. -/
structure Attempt (ι : Type) where
  openLibrary : Name → Option ι
  reads : ι → Bool
  loads : ι → Bool
  prelinks : ι → Bool
  links : ι → Bool
  /-- The flags have `RTLD_NODELETE` or `RTLD_GLOBAL`. -/
  keeps : Bool
  /-- The flags have `RTLD_NOLOAD`. -/
  noLoad : Bool

/-- `needed_by` is `none` for the library that is asked for, whoever asks. -/
structure LoadTask (ι : Type) where
  name : Name
  neededBy : Option ι

namespace Loaded

variable (F : Files ι) (a : Attempt ι) (s : Loaded ι)

/-- A name with a slash is not a `DT_SONAME`. -/
def findLoadedLibraryBySoname (name : Name) : Option ι :=
  if 47 ∈ name then none else s.solist.find? fun si => F.soname si = some name

/-- `find_library_internal`: the library, and whether it has to be added. -/
def findLibraryInternal (name : Name) : Option (ι × Bool) :=
  match s.findLoadedLibraryBySoname F name with
  | some si => some (si, false)
  | none => do
    let si ← a.openLibrary name
    if si ∈ s.solist then some (si, false)
    else if a.noLoad then none
    else if a.reads si then some (si, true)
    else none

/-- `needed_by->add_child(si)`. -/
def addNeeded (neededBy : Option ι) (si : ι) : Loaded ι :=
  match neededBy with
  | none => s
  | some needing => s.addChild needing si

/-- The first step of `find_libraries`. The tasks that are done come with their libraries; the result
says whether all libraries have been found. -/
def expandTasks : (fuel : Nat) → List (LoadTask ι) → List (ι × Option ι) → Loaded ι →
    Option (Bool × List (ι × Option ι) × Loaded ι)
  | 0, _, _, _ => none
  | _ + 1, [], done, s => some (true, done, s)
  | fuel + 1, task :: tasks, done, s =>
    match s.findLibraryInternal F a task.name with
    | none => some (false, done, s)
    | some (si, false) =>
      expandTasks fuel tasks (done ++ [(si, task.neededBy)]) (s.addNeeded task.neededBy si)
    | some (si, true) =>
      expandTasks fuel (tasks ++ (F.needed si).map fun name => ⟨name, some si⟩)
        (done ++ [(si, task.neededBy)]) ((s.soinfoAlloc si a.keeps).addNeeded task.neededBy si)

/-- The linking of a local group, with `link_image`. -/
def linkGroup (localGroupRoot : Option ι) : List ι → Loaded ι → Bool × Loaded ι
  | [], s => (true, s)
  | si :: localGroup, s =>
    if s.isLinked si then linkGroup localGroupRoot localGroup s
    else
      let s := { s with localGroupRoot := Function.update s.localGroupRoot si localGroupRoot }
      if a.links si then linkGroup localGroupRoot localGroup s else (false, s)

def setLinked (si : ι) : Loaded ι := { s with isLinked := Function.update s.isLinked si true }

/-- A reference between groups is counted. -/
def countTask (s : Loaded ι) (task : ι × Option ι) : Option (Loaded ι) :=
  match task with
  | (_, none) => some s
  | (si, some neededBy) =>
    if s.localGroupRoot neededBy ≠ s.localGroupRoot si then s.incrementRefCount si else some s

/-- `local_group`. -/
def localGroup (fuel : Nat) (root : ι) : Option (List ι) :=
  (walkDependenciesTree s.children (fun si localGroup => some (.kWalkContinue, localGroup ++ [si]))
    fuel [root] [] []).map fun r => r.2.2

/-- `find_libraries` from the fifth step on. -/
def linkLibraries (fuel : Nat) (root : ι) (tasks : List (ι × Option ι)) :
    Option (Bool × Loaded ι) := do
  let localGroup ← s.localGroup fuel root
  let (linked, s) := linkGroup a localGroup.head? localGroup s
  if !linked then return (false, s)
  else
    let s ← tasks.foldlM countTask (tasks.foldl (fun s t => s.setLinked t.1) s)
    return (true, s)

/-- `find_libraries`: whether it succeeds, and the library that is asked for. -/
def findLibraries (fuel : Nat) (name : Name) : Option (Bool × Option ι × Loaded ι) := do
  let (found, tasks, s) ← expandTasks F a fuel [⟨name, none⟩] [] s
  let si := tasks.head?.map Prod.fst
  if !found then return (false, si, s)
  else if !tasks.all fun t => s.isLinked t.1 || a.loads t.1 then return (false, si, s)
  else if !tasks.all fun t => s.isLinked t.1 || a.prelinks t.1 then return (false, si, s)
  else
    let root ← si
    let (linked, s) ← s.linkLibraries a fuel root tasks
    return (linked, si, s)

def findLibrary (fuel : Nat) (name : Name) : Option (Option ι × Loaded ι) := do
  match ← s.findLibraries F a fuel name with
  | (true, si, s) =>
    let si ← si
    let s ← s.incrementRefCount si
    return (some si, s)
  | (false, some si, s) =>
    let s ← s.soinfoUnload fuel si
    return (none, s)
  | (false, none, s) => return (none, s)

/-- `linker::load_library`, with a new `soinfo` of the launcher. -/
def loadLibrary (si : ι) : Option (Loaded ι) :=
  let s := s.soinfoAlloc si false
  incrementRefCount { s with
    isLinked := Function.update s.isLinked si true
    localGroupRoot := Function.update s.localGroupRoot si (some si) } si

/-- `linker::unload_library`. The result is zero if the library has been closed. -/
def unloadLibrary (fuel : Nat) (si : ι) : Option (Int × Loaded ι) := do
  let root ← s.localGroupRoot si
  if s.refCount root ≠ 1 then return (1, s)
  else
    let s ← s.soinfoUnload fuel si
    return (0, s)

end Loaded

/-! ## Clients -/

/-- The libraries, and the handles that are open. -/
structure Client (ι : Type) where
  loaded : Loaded ι
  handles : List ι

inductive Call (ι : Type)
  | dlopen (name : Name) (a : Attempt ι)
  | loadLibrary (si : ι)
  | dlclose (si : ι)
  | unloadLibrary (si : ι)

/-- Nothing is loaded. -/
def Client.start : Client ι :=
  ⟨⟨[], fun _ => [], fun _ => [], fun _ => false, fun _ => none, fun _ => 0, fun _ => false⟩, []⟩

/-- A call of a client, which closes what it has opened only. A new `soinfo` has an address of its
own. -/
def Client.call (F : Files ι) (fuel : Nat) (c : Client ι) : Call ι → Option (Client ι)
  | .dlopen name a => do
    let (si, s) ← c.loaded.findLibrary F a fuel name
    return ⟨s, si.toList ++ c.handles⟩
  | .loadLibrary si =>
    if si ∈ c.loaded.solist then some c
    else do
      let s ← c.loaded.loadLibrary si
      return ⟨s, si :: c.handles⟩
  | .dlclose si =>
    if si ∈ c.handles then do
      let s ← c.loaded.soinfoUnload fuel si
      return ⟨s, c.handles.erase si⟩
    else some c
  | .unloadLibrary si =>
    if si ∈ c.handles then do
      let (result, s) ← c.loaded.unloadLibrary fuel si
      return ⟨s, if result = 0 then c.handles.erase si else c.handles⟩
    else some c

end McpeLauncher.Linker
