import McpeLauncher.Linker.Dependencies
import Mathlib.Logic.Function.Basic

/-!
# Loaded libraries

`dlopen` loads a library and what it needs, and links what is new as one group. References into the
group are counted at its root, the library that was asked for: those of `dlopen` and those from
libraries of other groups. When the count becomes zero the whole group is unloaded.

There is one namespace, so that everything is accessible. Libraries are known by their addresses.
`none` stands for a stopped process.
-/

namespace McpeLauncher.Linker

variable {ι : Type} [DecidableEq ι]

/-- The libraries that are loaded, in the order of their coming, and what their `soinfo`s say. -/
structure Loaded (ι : Type) where
  solist : List ι
  children : ι → List ι
  parents : ι → List ι
  isLinked : ι → Bool
  localGroupRoot : ι → Option ι
  refCount : ι → Nat
  /-- `RTLD_NODELETE` or `RTLD_GLOBAL` is set. -/
  keeps : ι → Bool

namespace Loaded

variable (s : Loaded ι)

/-! ## `soinfo` -/

/-- `soinfo_alloc`, and the flags of the `soinfo` that it makes. -/
def soinfoAlloc (si : ι) (keeps : Bool) : Loaded ι where
  solist := s.solist ++ [si]
  children := Function.update s.children si []
  parents := Function.update s.parents si []
  isLinked := Function.update s.isLinked si false
  localGroupRoot := Function.update s.localGroupRoot si none
  refCount := Function.update s.refCount si 0
  keeps := Function.update s.keeps si keeps

def addChild (si child : ι) : Loaded ι :=
  { s with
    parents := Function.update s.parents child (s.parents child ++ [si])
    children := Function.update s.children si (s.children si ++ [child]) }

/-- `get_parents().remove(si)`. -/
def removeParent (child si : ι) : Loaded ι :=
  { s with parents := Function.update s.parents child ((s.parents child).filter (· ≠ si)) }

def removeAllLinks (si : ι) : Loaded ι :=
  let s : Loaded ι := { s with
    parents := fun x =>
      if x ∈ s.children si then (s.parents x).filter (· ≠ si) else s.parents x }
  let s : Loaded ι := { s with
    children := fun x =>
      if x ∈ s.parents si then (s.children x).filter (· ≠ si) else s.children x }
  { s with
    parents := Function.update s.parents si []
    children := Function.update s.children si [] }

def soinfoFree (si : ι) : Option (Loaded ι) :=
  if si ∈ s.solist then some ({ s with solist := s.solist.erase si }.removeAllLinks si) else none

def canUnload (si : ι) : Bool := !s.isLinked si || !s.keeps si

def incrementRefCount (si : ι) : Option (Loaded ι) := do
  let root ← s.localGroupRoot si
  return { s with refCount := Function.update s.refCount root (s.refCount root + 1) }

/-- `SIZE_MAX`, which comes before zero. -/
def sizeMax : Nat := 2 ^ 64 - 1

def decremented (count : Nat) : Nat := if count = 0 then sizeMax else count - 1

def decrementRefCount (si : ι) : Option (Nat × Loaded ι) := do
  let root ← s.localGroupRoot si
  let refCount := decremented (s.refCount root)
  return (refCount, { s with refCount := Function.update s.refCount root refCount })

/-! ## `soinfo_unload` -/

structure UnloadLists (ι : Type) where
  unloadList : List ι
  localUnloadList : List ι
  externalUnloadList : List ι

/-- Where `soinfo_unload_impl` puts a child. -/
def putChild (root child : ι) (l : UnloadLists ι) : UnloadLists ι :=
  if child ∈ l.localUnloadList then l
  else if s.isLinked child && s.localGroupRoot child ≠ some root then
    { l with externalUnloadList := l.externalUnloadList ++ [child] }
  else if (s.parents child).isEmpty then { l with unloadList := l.unloadList ++ [child] }
  else l

/-- The loop over the children of a library. -/
def unloadChildren (root si : ι) : List ι → UnloadLists ι → Loaded ι → UnloadLists ι × Loaded ι
  | [], l, s => (l, s)
  | child :: children, l, s =>
    let s := s.removeParent child si
    unloadChildren root si children (s.putChild root child l) s

/-- The first loop of `soinfo_unload_impl`. -/
def unloadLocal (root : ι) : (fuel : Nat) → UnloadLists ι → Loaded ι →
    Option (UnloadLists ι × Loaded ι)
  | 0, _, _ => none
  | fuel + 1, l, s =>
    match l.unloadList with
    | [] => some (l, s)
    | si :: unloadList =>
      if si ∈ l.localUnloadList then unloadLocal root fuel { l with unloadList } s
      else
        let l := { l with unloadList, localUnloadList := l.localUnloadList ++ [si] }
        let (l, s) := unloadChildren root si (s.children si) l s
        unloadLocal root fuel l { s with children := Function.update s.children si [] }

/-- The number of the references between libraries. -/
def edges : Nat := (s.solist.map fun si => (s.children si).length).sum

/-- `soinfo_unload_impl` after the test of the flags: what is unloaded, and what has to be unloaded
then. -/
def unloadGroup (root : ι) : Option (List ι × Loaded ι) := do
  let (l, s) ← unloadLocal root (s.edges + 2) ⟨[root], [], []⟩ s
  let s ← l.localUnloadList.foldlM soinfoFree s
  return (l.externalUnloadList, s)

/-- The root of the group, if the library is linked, and whether its last reference is gone. -/
def dropReference (si : ι) : Option (ι × Bool × Loaded ι) :=
  if s.isLinked si then do
    let root ← s.localGroupRoot si
    let (refCount, s) ← s.decrementRefCount si
    return (root, refCount = 0, s)
  else some (si, true, s)

/-- `soinfo_unload`, with `soinfo_unload_impl`, which it calls again for references from what has been
unloaded. -/
def soinfoUnload : (fuel : Nat) → Loaded ι → (si : ι) → Option (Loaded ι)
  | 0, _, _ => none
  | fuel + 1, s, si => do
    let (root, last, s) ← s.dropReference si
    if !last || !s.canUnload root then return s
    else
      let (external, s') ← s.unloadGroup root
      if s.isLinked root then external.foldlM (soinfoUnload fuel) s' else return s'

end Loaded
end McpeLauncher.Linker
