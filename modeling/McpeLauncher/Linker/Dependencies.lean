import McpeLauncher.Lib.BreadthFirst
import McpeLauncher.Linker.SymbolLookup

/-!
# The tree of the dependencies

`walk_dependencies_tree` goes breadth-first through the libraries that a library needs. `dlsym` looks
a symbol up in this order, in what is accessible from a namespace. Libraries and namespaces are known
by their addresses.
-/

namespace McpeLauncher.Linker
open Elf

variable {ι κ : Type} [DecidableEq ι] [DecidableEq κ] {c : ElfClass}

/-! ## `walk_dependencies_tree` -/

inductive WalkActionResult
  | kWalkStop
  | kWalkContinue
  | kWalkSkip
  deriving DecidableEq

/-- The loop, with the state `s` of the action. The result is whether the walk went to its end, the
libraries that have been visited, and the state. -/
def walkDependenciesTree {σ : Type} (getChildren : ι → List ι)
    (action : ι → σ → Option (WalkActionResult × σ)) :
    (fuel : Nat) → (visitList visited : List ι) → σ → Option (Bool × List ι × σ)
  | 0, _, _, _ => none
  | _ + 1, [], visited, s => some (true, visited, s)
  | fuel + 1, si :: visitList, visited, s =>
    if si ∈ visited then walkDependenciesTree getChildren action fuel visitList visited s
    else do
      match ← action si s with
      | (.kWalkStop, s) => some (false, visited, s)
      | (.kWalkSkip, s) =>
        walkDependenciesTree getChildren action fuel visitList (visited ++ [si]) s
      | (.kWalkContinue, s) =>
        walkDependenciesTree getChildren action fuel (visitList ++ getChildren si)
          (visited ++ [si]) s

section
variable {σ : Type} {getChildren : ι → List ι} {action : ι → σ → Option (WalkActionResult × σ)}
  {fuel : Nat} {si : ι} {visitList visited : List ι} {s s' : σ}

theorem walkDependenciesTree_cons :
    walkDependenciesTree getChildren action (fuel + 1) (si :: visitList) visited s =
      if si ∈ visited then walkDependenciesTree getChildren action fuel visitList visited s
      else (action si s).bind fun r =>
        match r with
        | (.kWalkStop, s) => some (false, visited, s)
        | (.kWalkSkip, s) =>
          walkDependenciesTree getChildren action fuel visitList (visited ++ [si]) s
        | (.kWalkContinue, s) =>
          walkDependenciesTree getChildren action fuel (visitList ++ getChildren si)
            (visited ++ [si]) s := rfl

theorem walkDependenciesTree_visited (h : si ∈ visited) :
    walkDependenciesTree getChildren action (fuel + 1) (si :: visitList) visited s =
      walkDependenciesTree getChildren action fuel visitList visited s := by
  rw [walkDependenciesTree_cons, if_pos h]

theorem walkDependenciesTree_failed (h : si ∉ visited) (haction : action si s = none) :
    walkDependenciesTree getChildren action (fuel + 1) (si :: visitList) visited s = none := by
  rw [walkDependenciesTree_cons, if_neg h, haction]
  rfl

theorem walkDependenciesTree_stop (h : si ∉ visited)
    (haction : action si s = some (.kWalkStop, s')) :
    walkDependenciesTree getChildren action (fuel + 1) (si :: visitList) visited s =
      some (false, visited, s') := by
  rw [walkDependenciesTree_cons, if_neg h, haction]
  rfl

theorem walkDependenciesTree_skip (h : si ∉ visited)
    (haction : action si s = some (.kWalkSkip, s')) :
    walkDependenciesTree getChildren action (fuel + 1) (si :: visitList) visited s =
      walkDependenciesTree getChildren action fuel visitList (visited ++ [si]) s' := by
  rw [walkDependenciesTree_cons, if_neg h, haction]
  rfl

theorem walkDependenciesTree_continue (h : si ∉ visited)
    (haction : action si s = some (.kWalkContinue, s')) :
    walkDependenciesTree getChildren action (fuel + 1) (si :: visitList) visited s =
      walkDependenciesTree getChildren action fuel (visitList ++ getChildren si)
        (visited ++ [si]) s' := by
  rw [walkDependenciesTree_cons, if_neg h, haction]
  rfl

end

/-! ## `dlsym` -/

/-- The libraries that are there, and the namespaces that they are in. -/
structure Solist (ι κ : Type) (c : ElfClass) where
  lib : ι → SoInfo c
  children : ι → List ι
  parents : ι → List ι
  primaryNamespace : ι → κ
  secondaryNamespaces : ι → List κ
  rtldGlobal : ι → Bool
  targetSdkVersion : ι → Int
  localGroupRoot : ι → ι
  soinfoList : κ → List ι

namespace Solist

variable (h : Solist ι κ c)

/-- `android_namespace_t::is_accessible`. -/
def isAccessible (ns : κ) (s : ι) : Bool :=
  isAccessibleFtor s true || !(h.parents s).all fun si => !isAccessibleFtor si false
where
  isAccessibleFtor (si : ι) (allowSecondary : Bool) : Bool :=
    h.primaryNamespace si = ns || allowSecondary && ns ∈ h.secondaryNamespaces si

/-- `skip_lookup`, and what has been found. -/
abbrev Lookup (ι : Type) (c : ElfClass) : Type := Bool × Option (ι × SoInfo.Found c)

/-- The action of `dlsym_handle_lookup_impl`. -/
def dlsymAction (ns : κ) (skipUntil : Option ι) (find : ι → Option (SoInfo.Found c))
    (currentSoinfo : ι) : Lookup ι c → Option (WalkActionResult × Lookup ι c)
  | (skipLookup, result) =>
    if skipLookup then some (.kWalkContinue, skipUntil ≠ some currentSoinfo, result)
    else if !h.isAccessible ns currentSoinfo then some (.kWalkSkip, skipLookup, result)
    else do
      let found ← find currentSoinfo
      if found.sym.isSome then some (.kWalkStop, skipLookup, some (currentSoinfo, found))
      else some (.kWalkContinue, skipLookup, result)

def dlsymHandleLookupImpl (fuel : Nat) (ns : κ) (root : ι) (skipUntil : Option ι) (name : Name)
    (vi : Option VersionInfo) : Option (Option (ι × SoInfo.Found c)) := do
  let (_, _, _, result) ← walkDependenciesTree h.children
    (h.dlsymAction ns skipUntil fun si => (h.lib si).findSymbolByName name vi) fuel [root] []
    (skipUntil.isSome, none)
  return result

/-- `RTLD_DEFAULT` and `RTLD_NEXT`. -/
inductive LookupHandle
  | rtldDefault
  | rtldNext
  deriving DecidableEq

/-- Where `dlsym_linear_lookup` begins. The caller is in the list. -/
def linearStart (ns : κ) (caller : ι) : LookupHandle → Option (List ι)
  | .rtldDefault => some (h.soinfoList ns)
  | .rtldNext =>
    if caller ∈ h.soinfoList ns then some ((h.soinfoList ns).dropWhile (· ≠ caller)).tail else none

/-- The loop of `dlsym_linear_lookup`, which passes over local libraries of recent applications. -/
def linearLoop (find : ι → Option (SoInfo.Found c)) :
    List ι → Option (Option (ι × SoInfo.Found c))
  | [] => some none
  | si :: sis =>
    if !h.rtldGlobal si && 23 ≤ h.targetSdkVersion si then linearLoop find sis
    else do
      let found ← find si
      if found.sym.isSome then some (some (si, found)) else linearLoop find sis

/-- `dlsym_linear_lookup`. -/
def dlsymLinearLookup (fuel : Nat) (ns : κ) (name : Name) (vi : Option VersionInfo)
    (caller : Option ι) (handle : LookupHandle) : Option (Option (ι × SoInfo.Found c)) :=
  let find si := (h.lib si).findSymbolByName name vi
  match caller with
  | none =>
    match handle with
    | .rtldNext => some none
    | .rtldDefault => h.linearLoop find (h.soinfoList ns)
  | some caller => do
    let start ← h.linearStart ns caller handle
    match ← h.linearLoop find start with
    | some found => some (some found)
    | none =>
      let localGroupRoot := h.localGroupRoot caller
      h.dlsymHandleLookupImpl fuel (h.primaryNamespace localGroupRoot) localGroupRoot
        (if handle = .rtldNext then some caller else none) name vi

/-! ## What is found -/

/-- The first of the libraries in which the symbol is found. -/
def findFirst (find : ι → Option (SoInfo.Found c)) :
    List ι → Option (Option (ι × SoInfo.Found c))
  | [] => some none
  | si :: sis => do
    let found ← find si
    if found.sym.isSome then some (some (si, found)) else findFirst find sis

omit [DecidableEq ι] in
theorem findFirst_append (find : ι → Option (SoInfo.Found c)) (sis sis' : List ι) :
    findFirst find (sis ++ sis') = (findFirst find sis).bind fun found =>
      match found with
      | some found => some (some found)
      | none => findFirst find sis' := by
  induction sis with
  | nil => rfl
  | cons si sis ih =>
    rw [List.cons_append, findFirst, findFirst, ih]
    cases find si with
    | none => rfl
    | some found =>
      simp only [Option.bind_eq_bind, Option.bind_some]
      split <;> rfl

/-- What comes behind a library, or everything. -/
def behind (skipUntil : Option ι) (order : List ι) : List ι :=
  match skipUntil with
  | none => order
  | some si => (order.dropWhile (· ≠ si)).tail

@[simp] theorem behind_none (order : List ι) : behind none order = order := rfl

@[simp] theorem behind_nil (skipUntil : Option ι) : behind skipUntil [] = [] := by
  cases skipUntil <;> rfl

/-- `skip_lookup` goes with the walk. -/
theorem behind_cons {skipUntil : Option ι} (hskip : skipUntil.isSome) (si : ι) (order : List ι) :
    behind skipUntil (si :: order) =
      behind (if skipUntil ≠ some si then skipUntil else none) order := by
  obtain ⟨s, rfl⟩ := Option.isSome_iff_exists.mp hskip
  by_cases heq : si = s
  · simp [behind, heq]
  · have hne : some s ≠ some si := fun h => heq (Option.some.inj h).symm
    simp [behind, heq, hne]

section
open BreadthFirst
variable {ns : κ} {skipUntil : Option ι} {find : ι → Option (SoInfo.Found c)} {U : Finset ι}

/-- What the walk of `dlsym_handle_lookup_impl` finds from a state on: it goes on through `rest`, as
long as nothing is found. -/
def Finds (ns : κ) (skipUntil : Option ι) (find : ι → Option (SoInfo.Found c)) (fuel : Nat)
    (s : State ι) (skipLookup : Bool) : Prop :=
  ∃ rest t, Steps h.children s t ∧ t.queue = [] ∧ t.order = s.order ++ rest ∧
    t.skipped = s.skipped ++ (behind (if skipLookup then skipUntil else none) rest).filter
      (!h.isAccessible ns ·) ∧
    (walkDependenciesTree h.children (h.dlsymAction ns skipUntil find) fuel
      (s.queue.map Prod.fst) s.order (skipLookup, none)).map (fun r => r.2.2.2) =
    findFirst find ((behind (if skipLookup then skipUntil else none) rest).filter
      (h.isAccessible ns))

variable {h}

theorem Finds.again {fuel k : Nat} {si : ι} {q vis : List (ι × Nat)} {sk : List ι}
    {skipLookup : Bool} (hmem : si ∈ vis.map Prod.fst)
    (hrest : h.Finds ns skipUntil find fuel ⟨q, vis, sk⟩ skipLookup) :
    h.Finds ns skipUntil find (fuel + 1) ⟨(si, k) :: q, vis, sk⟩ skipLookup := by
  obtain ⟨rest, t, hsteps, hend, horder, hskipped, hwalk⟩ := hrest
  refine ⟨rest, t, .head (.again hmem) hsteps, hend, horder, hskipped, ?_⟩
  exact (congrArg _ (walkDependenciesTree_visited hmem)).trans hwalk

/-- While `skip_lookup` is set, every library is passed. -/
theorem Finds.skipLookup {fuel k : Nat} {si : ι} {q vis : List (ι × Nat)} {sk : List ι}
    (hmem : si ∉ vis.map Prod.fst) (hskip : skipUntil.isSome)
    (hrest : h.Finds ns skipUntil find fuel
      ⟨q ++ (h.children si).map (·, k + 1), vis ++ [(si, k)], sk⟩ (skipUntil ≠ some si)) :
    h.Finds ns skipUntil find (fuel + 1) ⟨(si, k) :: q, vis, sk⟩ true := by
  obtain ⟨rest, t, hsteps, hend, horder, hskipped, hwalk⟩ := hrest
  have hbehind := behind_cons hskip si rest
  simp only [decide_eq_true_eq] at hskipped hwalk
  rw [← hbehind] at hskipped hwalk
  refine ⟨si :: rest, t, .head (.visit hmem) hsteps, hend, ?_, hskipped, ?_⟩
  · rw [horder, State.order_concat, List.append_assoc]
    rfl
  · rw [map_fst_queue, State.order_concat] at hwalk
    exact (congrArg _ (walkDependenciesTree_continue hmem rfl)).trans hwalk

/-- What is not accessible is skipped. -/
theorem Finds.inaccessible {fuel k : Nat} {si : ι} {q vis : List (ι × Nat)} {sk : List ι}
    (hmem : si ∉ vis.map Prod.fst) (hacc : h.isAccessible ns si = false)
    (hrest : h.Finds ns skipUntil find fuel ⟨q, vis ++ [(si, k)], sk ++ [si]⟩ false) :
    h.Finds ns skipUntil find (fuel + 1) ⟨(si, k) :: q, vis, sk⟩ false := by
  obtain ⟨rest, t, hsteps, hend, horder, hskipped, hwalk⟩ := hrest
  refine ⟨si :: rest, t, .head (.skip hmem) hsteps, hend, ?_, ?_, ?_⟩
  · rw [horder, State.order_concat, List.append_assoc]
    rfl
  · rw [hskipped, List.append_assoc]
    simp [hacc]
  · rw [State.order_concat] at hwalk
    have haction : h.dlsymAction ns skipUntil find si (false, none) =
        some (.kWalkSkip, false, none) := by
      simp [dlsymAction, hacc]
    refine (congrArg _ (walkDependenciesTree_skip hmem haction)).trans (hwalk.trans ?_)
    simp [hacc]

theorem Finds.accessible {fuel k : Nat} {si : ι} {q vis : List (ι × Nat)} {sk : List ι}
    (hmem : si ∉ vis.map Prod.fst) (hacc : h.isAccessible ns si = true)
    (hrest : h.Finds ns skipUntil find fuel
      ⟨q ++ (h.children si).map (·, k + 1), vis ++ [(si, k)], sk⟩ false) :
    h.Finds ns skipUntil find (fuel + 1) ⟨(si, k) :: q, vis, sk⟩ false := by
  obtain ⟨rest, t, hsteps, hend, horder, hskipped, hwalk⟩ := hrest
  refine ⟨si :: rest, t, .head (.visit hmem) hsteps, hend, ?_, ?_, ?_⟩
  · rw [horder, State.order_concat, List.append_assoc]
    rfl
  · rw [hskipped]
    simp [hacc]
  · rw [map_fst_queue, State.order_concat] at hwalk
    have hlist : (behind (if false = true then skipUntil else none) (si :: rest)).filter
        (h.isAccessible ns) = si :: rest.filter (h.isAccessible ns) := by simp [hacc]
    rw [hlist, findFirst]
    cases hfind : find si with
    | none =>
      have haction : h.dlsymAction ns skipUntil find si (false, none) = none := by
        simp [dlsymAction, hacc, hfind]
      exact congrArg _ (walkDependenciesTree_failed hmem haction)
    | some found =>
      simp only [Option.bind_eq_bind, Option.bind_some]
      split
      · next hsym =>
        have haction : h.dlsymAction ns skipUntil find si (false, none) =
            some (.kWalkStop, false, some (si, found)) := by
          simp [dlsymAction, hacc, hfind, hsym]
        exact congrArg _ (walkDependenciesTree_stop hmem haction)
      · next hsym =>
        have haction : h.dlsymAction ns skipUntil find si (false, none) =
            some (.kWalkContinue, false, none) := by
          simp [dlsymAction, hacc, hfind, hsym]
        exact (congrArg _ (walkDependenciesTree_continue hmem haction)).trans hwalk

/-- The walk ends, also where libraries need each other. -/
theorem finds {fuel : Nat} : ∀ {s : State ι} {skipLookup : Bool},
    s.Within h.children U → s.potential h.children U < fuel →
    (skipLookup = true → skipUntil.isSome) → h.Finds ns skipUntil find fuel s skipLookup := by
  induction fuel with
  | zero => intro s skipLookup _ hfuel; exact absurd hfuel (Nat.not_lt_zero _)
  | succ fuel ih =>
    rintro ⟨queue, vis, sk⟩ skipLookup hwithin hfuel hskip
    have hnext {t : State ι} {skipLookup : Bool} (hstep : Step h.children ⟨queue, vis, sk⟩ t)
        (hskip : skipLookup = true → skipUntil.isSome) :
        h.Finds ns skipUntil find fuel t skipLookup :=
      ih (hstep.within hwithin)
        (Nat.lt_of_lt_of_le (hstep.potential_lt hwithin) (Nat.le_of_lt_succ hfuel)) hskip
    match queue with
    | [] => exact ⟨[], _, .refl, rfl, (List.append_nil _).symm, by simp, by
        simp [walkDependenciesTree, findFirst]⟩
    | (si, k) :: q =>
      by_cases hmem : si ∈ vis.map Prod.fst
      · exact .again hmem (hnext (.again hmem) hskip)
      · cases skipLookup with
        | true => exact .skipLookup hmem (hskip rfl) (hnext (.visit hmem) fun _ => hskip rfl)
        | false =>
          cases hacc : h.isAccessible ns si with
          | false => exact .inaccessible hmem hacc (hnext (.skip hmem) hskip)
          | true => exact .accessible hmem hacc (hnext (.visit hmem) hskip)

/-- **`dlsym` on a handle** goes through the library and what it needs, the nearest first and each
once, and finds the first symbol. Behind `skip_until` only what is accessible is searched and
passed. -/
theorem dlsymHandleLookupImpl_eq {root : ι} (hroot : root ∈ U)
    (hclosed : ∀ si ∈ U, ∀ child ∈ h.children si, child ∈ U) {fuel : Nat}
    (hfuel : 1 + ∑ si ∈ U, (h.children si).length < fuel) (ns : κ) (skipUntil : Option ι)
    (name : Name) (vi : Option VersionInfo) :
    ∃ order, Order h.children (fun si => si ∈ behind skipUntil order → h.isAccessible ns si) root
        order ∧
      h.dlsymHandleLookupImpl fuel ns root skipUntil name vi =
        findFirst (fun si => (h.lib si).findSymbolByName name vi)
          ((behind skipUntil order).filter (h.isAccessible ns)) := by
  have hwithin : (State.start root).Within h.children U :=
    ⟨fun x hx => List.mem_singleton.mp hx ▸ hroot, hclosed⟩
  have hfinds : h.Finds ns skipUntil (fun si => (h.lib si).findSymbolByName name vi) fuel
      (State.start root) skipUntil.isSome := finds hwithin (by rwa [potential_start]) id
  obtain ⟨order, t, hsteps, hend, horder, hskipped, hwalk⟩ := hfinds
  have hskip : (if skipUntil.isSome then skipUntil else none) = skipUntil := by
    cases skipUntil <;> rfl
  rw [hskip] at hskipped hwalk
  have horder : t.order = order := horder
  have hvisits : Order h.children (· ∉ t.skipped) root order :=
    horder ▸ ((Inv.start root).steps hsteps).order hend
  refine ⟨order, hvisits.congr fun si _ => ?_, ?_⟩
  · rw [hskipped]
    simp [State.start]
  · rw [← hwalk, dlsymHandleLookupImpl]
    exact Option.map_eq_bind.symm

/-- A library that `dlsym_linear_lookup` does not pass over. -/
def isSearched (h : Solist ι κ c) (si : ι) : Bool := h.rtldGlobal si || h.targetSdkVersion si < 23

omit [DecidableEq ι] [DecidableEq κ] in
theorem linearLoop_eq (sis : List ι) :
    h.linearLoop find sis = findFirst find (sis.filter h.isSearched) := by
  induction sis with
  | nil => rfl
  | cons si sis ih =>
    have hpassed : (!h.rtldGlobal si && 23 ≤ h.targetSdkVersion si) = !h.isSearched si := by
      rw [isSearched, Bool.not_or, ← decide_not, decide_eq_decide.mpr Int.not_lt]
    rw [linearLoop, hpassed, List.filter_cons, ih]
    cases h.isSearched si <;> rfl

/-- **`dlsym` with `RTLD_DEFAULT` or `RTLD_NEXT`** goes through the libraries of the namespace that
are global, with `RTLD_NEXT` from the caller on, and then through the group of the caller. -/
theorem dlsymLinearLookup_eq {caller : ι} (hroot : h.localGroupRoot caller ∈ U)
    (hclosed : ∀ si ∈ U, ∀ child ∈ h.children si, child ∈ U) {fuel : Nat}
    (hfuel : 1 + ∑ si ∈ U, (h.children si).length < fuel) {ns : κ}
    (hcaller : caller ∈ h.soinfoList ns) (handle : LookupHandle) (name : Name)
    (vi : Option VersionInfo) :
    ∃ order,
      let skipUntil := if handle = .rtldNext then some caller else none
      let groupNs := h.primaryNamespace (h.localGroupRoot caller)
      Order h.children (fun si => si ∈ behind skipUntil order → h.isAccessible groupNs si)
        (h.localGroupRoot caller) order ∧
      h.dlsymLinearLookup fuel ns name vi (some caller) handle =
        findFirst (fun si => (h.lib si).findSymbolByName name vi)
          ((behind skipUntil (h.soinfoList ns)).filter h.isSearched ++
            (behind skipUntil order).filter (h.isAccessible groupNs)) := by
  obtain ⟨order, horder, hlookup⟩ := h.dlsymHandleLookupImpl_eq hroot hclosed hfuel
    (h.primaryNamespace (h.localGroupRoot caller))
    (if handle = .rtldNext then some caller else none) name vi
  refine ⟨order, horder, ?_⟩
  have hstart : h.linearStart ns caller handle =
      some (behind (if handle = .rtldNext then some caller else none) (h.soinfoList ns)) := by
    cases handle with
    | rtldDefault => rfl
    | rtldNext => exact if_pos hcaller
  rw [findFirst_append, ← hlookup, ← linearLoop_eq, dlsymLinearLookup]
  simp only [hstart, Option.bind_eq_bind, Option.bind_some]

end

/-- Two libraries that need each other. -/
def twoLibs : Solist Bool Unit .ELF64 where
  lib _ := oneSymbolLib
  children si := [!si]
  parents si := [!si]
  primaryNamespace _ := ()
  secondaryNamespaces _ := []
  rtldGlobal _ := false
  targetSdkVersion _ := 30
  localGroupRoot _ := false
  soinfoList _ := [false, true]

theorem dlsymHandleLookupImpl_twoLibs : ∃ order,
    BreadthFirst.Order twoLibs.children
      (fun si => si ∈ behind none order → twoLibs.isAccessible () si) false order ∧
    twoLibs.dlsymHandleLookupImpl 4 () false none [102] none =
      findFirst (fun si => (twoLibs.lib si).findSymbolByName [102] none)
        ((behind none order).filter (twoLibs.isAccessible ())) :=
  dlsymHandleLookupImpl_eq (Finset.mem_univ false) (fun _ _ _ _ => Finset.mem_univ _) (by decide)
    () none [102] none

theorem dlsymLinearLookup_twoLibs : ∃ order,
    BreadthFirst.Order twoLibs.children
      (fun si => si ∈ behind (some false) order → twoLibs.isAccessible () si) false order ∧
    twoLibs.dlsymLinearLookup 4 () [102] none (some false) .rtldNext =
      findFirst (fun si => (twoLibs.lib si).findSymbolByName [102] none)
        ((behind (some false) [false, true]).filter twoLibs.isSearched ++
          (behind (some false) order).filter (twoLibs.isAccessible ())) :=
  dlsymLinearLookup_eq (Finset.mem_univ _) (fun _ _ _ _ => Finset.mem_univ _) (by decide)
    (.head _) .rtldNext [102] none

end Solist
end McpeLauncher.Linker
