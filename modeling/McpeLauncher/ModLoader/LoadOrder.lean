import Mathlib.Data.Char
import Mathlib.Data.List.Infix
import Mathlib.Data.List.Lex
import Mathlib.Data.List.Sort
import Mathlib.Logic.Relation

/-!
# Loading the mods of a directory

`ModLoader::loadModsFromDirectory`: the names of the mod files are collected in a set, from which
the first one is taken again and again. Before a mod is loaded, its dependencies that are still in
the set are taken out of it and loaded; the erasure is the only mark that a mod has been visited.
In the first pass (`preinit`) a mod that needs `libminecraftpe.so` is skipped, and so is one whose
dependency was skipped during its own descent.

A `std::set` is a list of its elements in the order in which it yields them.
-/

namespace McpeLauncher.ModLoader
open scoped List

abbrev FileName := List Char

/-- What the loader reads of a directory: its entries, and for each file the names in its
`DT_NEEDED` entries. -/
structure ModDir where
  entries : List FileName
  getModDependencies : FileName → List FileName

/-- The set of mods that are still to be loaded, and the calls of `loadMod` so far. -/
structure LoadState where
  otherMods : List FileName
  loaded : List FileName
  deriving DecidableEq

namespace ModDir
variable (D : ModDir)

/-- An entry with a name that ends in `.so` and does not begin with a dot. -/
def isMod (fileName : FileName) : Bool :=
  fileName.head? ≠ some '.' && 4 ≤ fileName.length && ".so".toList.isSuffixOf fileName

/-- `std::set::insert`. -/
def insertName (names : List FileName) (name : FileName) : List FileName :=
  if name ∈ names then names else names.orderedInsert (· ≤ ·) name

def modsToLoad : List FileName := (D.entries.filter isMod).foldl insertName []

/-- Some dependency has `libminecraftpe.so` in its name. -/
def needsMinecraft (fileName : FileName) : Bool :=
  (D.getModDependencies fileName).any fun dep => "libminecraftpe.so".toList <:+: dep

/-- The loop of `loadModMulti` over the dependencies, with its recursive call. -/
def loadDependencies (rec : FileName → LoadState → Option (Bool × LoadState)) :
    List FileName → LoadState → Option (Bool × LoadState)
  | [], s => some (true, s)
  | dep :: deps, s =>
    if dep ∈ s.otherMods then do
      let (ok, s) ← rec dep { s with otherMods := s.otherMods.erase dep }
      if ok then loadDependencies rec deps { s with otherMods := s.otherMods.erase dep }
      else return (false, s)
    else loadDependencies rec deps s

/-- `loadModMulti`, for a descent of at most that depth. -/
def loadModMulti (preinit : Bool) : Nat → FileName → LoadState → Option (Bool × LoadState)
  | 0, _, _ => none
  | fuel + 1, fileName, s =>
    if preinit && D.needsMinecraft fileName then some (false, s)
    else do
      let (ok, s) ← loadDependencies (loadModMulti preinit fuel) (D.getModDependencies fileName) s
      if ok then return (true, { s with loaded := s.loaded ++ [fileName] })
      else return (false, s)

/-- The last loop of `loadModsFromDirectory`, for at most so many rounds. -/
def loadLoop (preinit : Bool) : Nat → LoadState → Option LoadState
  | 0, _ => none
  | fuel + 1, s =>
    match s.otherMods with
    | [] => some s
    | fileName :: rest => do
      let (_, s) ← D.loadModMulti preinit (fuel + 1) fileName { s with otherMods := rest }
      loadLoop preinit fuel s

/-- The calls of `loadMod` if the set of mods yields them in the given order. -/
def loadInOrder (preinit : Bool) (fuel : Nat) (mods : List FileName) : Option (List FileName) :=
  (D.loadLoop preinit fuel ⟨mods, []⟩).map (·.loaded)

def loadModsFromDirectory (preinit : Bool) (fuel : Nat) : Option (List FileName) :=
  D.loadInOrder preinit fuel D.modsToLoad

/-- One mod of the directory depends on another. -/
def DependsOn (a b : FileName) : Prop :=
  a ∈ D.modsToLoad ∧ b ∈ D.modsToLoad ∧ b ∈ D.getModDependencies a

def Acyclic : Prop := ∀ a, ¬Relation.TransGen D.DependsOn a a

/-! ## The set of mods -/

theorem insertName_perm (names : List FileName) (name : FileName) (h : names.Nodup) :
    (insertName names name).Nodup ∧ ∀ x, x ∈ insertName names name ↔ x ∈ names ∨ x = name := by
  unfold insertName
  split
  · next hmem =>
    refine ⟨h, fun x => ⟨.inl, ?_⟩⟩
    rintro (hx | rfl)
    · exact hx
    · exact hmem
  · next hmem =>
    have hperm := List.perm_orderedInsert (· ≤ ·) name names
    refine ⟨hperm.nodup_iff.mpr (List.nodup_cons.mpr ⟨hmem, h⟩), fun x => ?_⟩
    rw [hperm.mem_iff, List.mem_cons, or_comm]

theorem foldl_insertName (new names : List FileName) (h : names.Nodup) :
    (new.foldl insertName names).Nodup ∧
      ∀ x, x ∈ new.foldl insertName names ↔ x ∈ names ∨ x ∈ new := by
  induction new generalizing names with
  | nil => simpa using h
  | cons a new ih =>
    obtain ⟨hn, hmem⟩ := insertName_perm names a h
    obtain ⟨hn', hmem'⟩ := ih (insertName names a) hn
    refine ⟨hn', fun x => ?_⟩
    rw [List.foldl_cons, hmem', hmem, List.mem_cons, or_assoc]

theorem nodup_modsToLoad : D.modsToLoad.Nodup := (foldl_insertName _ [] .nil).1

theorem mem_modsToLoad : x ∈ D.modsToLoad ↔ x ∈ D.entries ∧ isMod x = true := by
  rw [modsToLoad, (foldl_insertName _ [] .nil).2, List.mem_filter]
  simp

/-! ## Every call returns -/

/-- What any call does to the state: mods only leave the set, and only calls of `loadMod` are
added. -/
structure Extends (s s' : LoadState) : Prop where
  otherMods : s'.otherMods <+ s.otherMods
  loaded : s.loaded <+: s'.loaded

theorem Extends.refl (s : LoadState) : Extends s s := ⟨.refl _, List.prefix_rfl⟩

theorem Extends.trans (h : Extends s s') (h' : Extends s' s'') : Extends s s'' :=
  ⟨h'.otherMods.trans h.otherMods, h.loaded.trans h'.loaded⟩

theorem Extends.erase (s : LoadState) (dep : FileName) :
    Extends s { s with otherMods := s.otherMods.erase dep } :=
  ⟨List.erase_sublist, List.prefix_rfl⟩

theorem length_erase_lt {s : LoadState} (h : dep ∈ s.otherMods) (hn : s.otherMods.length ≤ n) :
    (s.otherMods.erase dep).length < n := by
  have := List.length_erase_add_one h
  omega

theorem loadDependencies_total {rec : FileName → LoadState → Option (Bool × LoadState)} {n : Nat}
    (hrec : ∀ f s, s.otherMods.length < n → ∃ ok s', rec f s = some (ok, s') ∧ Extends s s')
    (deps : List FileName) (s : LoadState) (h : s.otherMods.length ≤ n) :
    ∃ ok s', loadDependencies rec deps s = some (ok, s') ∧ Extends s s' := by
  induction deps generalizing s with
  | nil => exact ⟨true, s, rfl, .refl s⟩
  | cons dep deps ih =>
    rw [loadDependencies]
    split
    · next hmem =>
      obtain ⟨ok, s₁, hcall, hext⟩ :=
        hrec dep { s with otherMods := s.otherMods.erase dep } (length_erase_lt hmem h)
      have hext₁ := (Extends.erase s dep).trans hext
      rw [hcall]
      cases ok with
      | false => exact ⟨false, s₁, rfl, hext₁⟩
      | true =>
        have hext₂ := hext₁.trans (.erase s₁ dep)
        obtain ⟨ok, s₂, hloop, hext₃⟩ := ih _ (hext₂.otherMods.length_le.trans h)
        exact ⟨ok, s₂, hloop, hext₂.trans hext₃⟩
    · exact ih s h

theorem loadModMulti_total (preinit : Bool) (fuel : Nat) (fileName : FileName) (s : LoadState)
    (h : s.otherMods.length < fuel) :
    ∃ ok s', D.loadModMulti preinit fuel fileName s = some (ok, s') ∧ Extends s s' := by
  induction fuel generalizing fileName s with
  | zero => omega
  | succ fuel ih =>
    rw [loadModMulti]
    split
    · exact ⟨false, s, rfl, .refl s⟩
    · obtain ⟨ok, s₁, hloop, hext⟩ := loadDependencies_total (fun f s => ih f s)
        (D.getModDependencies fileName) s (Nat.le_of_lt_succ h)
      rw [hloop]
      cases ok with
      | false => exact ⟨false, s₁, rfl, hext⟩
      | true => exact ⟨true, _, rfl, hext.otherMods, hext.loaded.trans (List.prefix_append ..)⟩

/-! ## Mods that are not skipped -/

/-- The mod or one that it depends on needs `libminecraftpe.so`. -/
def Tainted (f : FileName) : Prop :=
  ∃ g, Relation.ReflTransGen D.DependsOn f g ∧ D.needsMinecraft g = true

/-- Nothing keeps the mod from being loaded in this pass. -/
def Clear (preinit : Bool) (f : FileName) : Prop := preinit = true → ¬D.Tainted f

/-- The state has mods of the directory, without duplicates. -/
structure Valid (s : LoadState) : Prop where
  nodup : s.otherMods.Nodup
  mem : ∀ x ∈ s.otherMods, x ∈ D.modsToLoad

/-- All mods of `front` and those that left the set have been loaded, and none that is to be
skipped. -/
structure Loads (preinit : Bool) (front : List FileName) (s s' : LoadState) : Prop extends
    Extends s s' where
  perm : ∃ new, s'.loaded = s.loaded ++ new ∧ (front ++ s.otherMods).Perm (new ++ s'.otherMods) ∧
    ∀ x ∈ new, D.Clear preinit x

variable {D} {preinit : Bool}

theorem Clear.dependency (h : D.Clear preinit f) (hdep : D.DependsOn f d) :
    D.Clear preinit d := by
  rintro hp ⟨g, hpath, hneeds⟩
  exact h hp ⟨g, hpath.head hdep, hneeds⟩

theorem Valid.extends (h : D.Valid s) (hext : Extends s s') : D.Valid s' :=
  ⟨h.nodup.sublist hext.otherMods, fun x hx => h.mem x (hext.otherMods.subset hx)⟩

theorem Loads.trans (h : D.Loads preinit front s s') (h' : D.Loads preinit front' s' s'') :
    D.Loads preinit (front' ++ front) s s'' := by
  obtain ⟨new, hloaded, hperm, hclear⟩ := h.perm
  obtain ⟨new', hloaded', hperm', hclear'⟩ := h'.perm
  refine ⟨h.toExtends.trans h'.toExtends, new ++ new', ?_, ?_, fun x hx => ?_⟩
  · rw [hloaded', hloaded, List.append_assoc]
  · calc front' ++ front ++ s.otherMods
        _ = front' ++ (front ++ s.otherMods) := List.append_assoc ..
        _ ~ front' ++ (new ++ s'.otherMods) := hperm.append_left front'
        _ ~ new ++ (front' ++ s'.otherMods) := by
          rw [← List.append_assoc, ← List.append_assoc]
          exact List.perm_append_comm.append_right _
        _ ~ new ++ (new' ++ s''.otherMods) := hperm'.append_left new
        _ = new ++ new' ++ s''.otherMods := (List.append_assoc ..).symm
  · rcases List.mem_append.mp hx with hx | hx
    · exact hclear x hx
    · exact hclear' x hx

/-- Taking a mod out of the set and loading it. -/
theorem Loads.of_erase (hdep : dep ∈ s.otherMods)
    (h : D.Loads preinit [dep] { s with otherMods := s.otherMods.erase dep } s') :
    D.Loads preinit [] s s' := by
  obtain ⟨new, hloaded, hperm, hclear⟩ := h.perm
  exact ⟨(Extends.erase s dep).trans h.toExtends, new, hloaded,
    (List.perm_cons_erase hdep).trans hperm, hclear⟩

/-- The second erasure of a dependency has no effect. -/
theorem erase_loaded (hv : D.Valid s) (hext : Extends { s with otherMods := s.otherMods.erase dep } s') :
    { s' with otherMods := s'.otherMods.erase dep } = s' := by
  rw [List.erase_of_not_mem]
  intro hmem
  exact hv.nodup.not_mem_erase (hext.otherMods.subset hmem)

theorem loadDependencies_clear {rec : FileName → LoadState → Option (Bool × LoadState)} {n : Nat}
    (hrec : ∀ f s, f ∈ D.modsToLoad → D.Clear preinit f → D.Valid s → s.otherMods.length < n →
      ∃ s', rec f s = some (true, s') ∧ D.Loads preinit [f] s s')
    (deps : List FileName) (s : LoadState) (hv : D.Valid s) (h : s.otherMods.length ≤ n)
    (hclear : ∀ d ∈ deps, d ∈ s.otherMods → D.Clear preinit d) :
    ∃ s', loadDependencies rec deps s = some (true, s') ∧ D.Loads preinit [] s s' ∧
      ∀ d ∈ deps, d ∉ s'.otherMods := by
  induction deps generalizing s with
  | nil => exact ⟨s, rfl, ⟨.refl s, [], by simp⟩, by simp⟩
  | cons dep deps ih =>
    rw [loadDependencies]
    split
    · next hmem =>
      obtain ⟨s₁, hcall, hloads⟩ := hrec dep _ (hv.mem dep hmem)
        (hclear dep List.mem_cons_self hmem) (hv.extends (.erase s dep)) (length_erase_lt hmem h)
      have hloads₁ := Loads.of_erase hmem hloads
      obtain ⟨s₂, hloop, hloads₂, hgone⟩ := ih s₁ (hv.extends hloads₁.toExtends)
        (hloads₁.otherMods.length_le.trans h)
        fun d hd hmem => hclear d (List.mem_cons_of_mem _ hd) (hloads₁.otherMods.subset hmem)
      rw [hcall]
      refine ⟨s₂, ?_, hloads₁.trans hloads₂, fun d hd => ?_⟩
      · simp only [Option.bind_eq_bind, Option.bind_some, if_true,
          erase_loaded hv hloads.toExtends, hloop]
      · rcases List.mem_cons.mp hd with rfl | hd
        · exact fun hmem' => hv.nodup.not_mem_erase
            (hloads.otherMods.subset (hloads₂.otherMods.subset hmem'))
        · exact hgone d hd
    · next hmem =>
      obtain ⟨s₁, hloop, hloads, hgone⟩ :=
        ih s hv h fun d hd => hclear d (List.mem_cons_of_mem _ hd)
      refine ⟨s₁, hloop, hloads, fun d hd => ?_⟩
      rcases List.mem_cons.mp hd with rfl | hd
      · exact fun hmem' => hmem (hloads.otherMods.subset hmem')
      · exact hgone d hd

/-- A mod that is not to be skipped is loaded, with some of the mods that it depends on. -/
theorem loadModMulti_clear (fuel : Nat) (f : FileName) (s : LoadState) (hf : f ∈ D.modsToLoad)
    (hclear : D.Clear preinit f) (hv : D.Valid s) (h : s.otherMods.length < fuel) :
    ∃ s', D.loadModMulti preinit fuel f s = some (true, s') ∧ D.Loads preinit [f] s s' := by
  induction fuel generalizing f s with
  | zero => omega
  | succ fuel ih =>
    have hneeds : (preinit && D.needsMinecraft f) = false := by
      rw [Bool.and_eq_false_iff]
      by_contra hnot
      rw [not_or, Bool.not_eq_false, Bool.not_eq_false] at hnot
      exact hclear hnot.1 ⟨f, .refl, hnot.2⟩
    obtain ⟨s₁, hloop, hloads, _⟩ := loadDependencies_clear (fun f s => ih f s)
      (D.getModDependencies f) s hv (Nat.le_of_lt_succ h)
      fun d hd hmem => hclear.dependency ⟨hf, hv.mem d hmem, hd⟩
    refine ⟨{ s₁ with loaded := s₁.loaded ++ [f] }, ?_, ?_⟩
    · simp only [loadModMulti, hneeds, Bool.false_eq_true, if_false, hloop, Option.bind_eq_bind,
        Option.bind_some, if_true, Option.pure_def]
    · have hself : D.Loads preinit [f] s₁ { s₁ with loaded := s₁.loaded ++ [f] } :=
        ⟨⟨.refl _, List.prefix_append ..⟩, [f], rfl, .refl _, by simpa using hclear⟩
      exact hloads.trans hself

/-! ## The order of loading -/

/-- Each mod in the list comes after the mods that it depends on. -/
def Ordered (D : ModDir) (l : List FileName) : Prop :=
  ∀ before a after, l = before ++ a :: after → ∀ b, D.DependsOn a b → b ∈ before

theorem Ordered.snoc (h : D.Ordered l) (hf : ∀ b, D.DependsOn f b → b ∈ l) :
    D.Ordered (l ++ [f]) := by
  intro before a after heq b hdep
  rcases List.eq_nil_or_concat after with rfl | ⟨after', x, rfl⟩
  · obtain ⟨rfl, hfa⟩ := List.append_inj' heq rfl
    cases hfa
    exact hf b hdep
  · rw [List.concat_eq_append, ← List.cons_append, ← List.append_assoc] at heq
    exact h before a after' (List.append_inj' heq rfl).1 b hdep

/-- All mods that `f` depends on, directly or not, are loaded or still to be loaded. None of them is
just being loaded, then. -/
def Awaits (D : ModDir) (f : FileName) (s : LoadState) : Prop :=
  ∀ d, Relation.TransGen D.DependsOn f d → d ∈ s.otherMods ∨ d ∈ s.loaded

/-- A mod that leaves the set has been loaded. -/
theorem Loads.mem (h : D.Loads preinit [] s s') (hx : x ∈ s.otherMods ∨ x ∈ s.loaded) :
    x ∈ s'.otherMods ∨ x ∈ s'.loaded := by
  obtain ⟨new, hloaded, hperm, _⟩ := h.perm
  rcases hx with hx | hx
  · rcases List.mem_append.mp (hperm.subset hx) with hnew | hother
    · exact .inr (hloaded ▸ List.mem_append_right _ hnew)
    · exact .inl hother
  · exact .inr (h.loaded.subset hx)

theorem loadDependencies_ordered {rec : FileName → LoadState → Option (Bool × LoadState)} {n : Nat}
    (hacyclic : D.Acyclic)
    (hrec : ∀ f s, f ∈ D.modsToLoad → D.Valid s → s.otherMods.length < n →
      ∃ s', rec f s = some (true, s') ∧ D.Loads false [f] s s')
    (hord : ∀ f s s', f ∈ D.modsToLoad → D.Valid s → s.otherMods.length < n → D.Awaits f s →
      D.Ordered s.loaded → rec f s = some (true, s') → D.Ordered s'.loaded)
    (f : FileName) (deps : List FileName) (s : LoadState) (hf : f ∈ D.modsToLoad)
    (hdeps : ∀ d ∈ deps, d ∈ D.getModDependencies f) (hv : D.Valid s)
    (h : s.otherMods.length ≤ n) (hawait : D.Awaits f s) (hs : D.Ordered s.loaded) :
    ∃ s', loadDependencies rec deps s = some (true, s') ∧ D.Loads false [] s s' ∧
      D.Ordered s'.loaded := by
  induction deps generalizing s with
  | nil => exact ⟨s, rfl, ⟨.refl s, [], by simp⟩, hs⟩
  | cons dep deps ih =>
    have hdeps' : ∀ d ∈ deps, d ∈ D.getModDependencies f :=
      fun d hd => hdeps d (List.mem_cons_of_mem _ hd)
    rw [loadDependencies]
    split
    · next hmem =>
      have hdep : D.DependsOn f dep := ⟨hf, hv.mem dep hmem, hdeps dep List.mem_cons_self⟩
      have hlt := length_erase_lt hmem h
      obtain ⟨s₁, hcall, hloads⟩ :=
        hrec dep { s with otherMods := s.otherMods.erase dep } hdep.2.1 (hv.extends (.erase s dep))
          hlt
      have hs₁ : D.Ordered s₁.loaded := by
        refine hord dep _ s₁ hdep.2.1 (hv.extends (.erase s dep)) hlt (fun d hd => ?_) hs hcall
        -- by acyclicity the erased mod is not among those that it depends on itself
        have hne : d ≠ dep := by
          rintro rfl
          exact hacyclic d hd
        rcases hawait d (.head hdep hd) with hd | hd
        · exact .inl ((List.mem_erase_of_ne hne).mpr hd)
        · exact .inr hd
      have hloads₁ := Loads.of_erase hmem hloads
      obtain ⟨s₂, hloop, hloads₂, hs₂⟩ := ih s₁ hdeps' (hv.extends hloads₁.toExtends)
        (hloads₁.otherMods.length_le.trans h) (fun d hd => hloads₁.mem (hawait d hd)) hs₁
      rw [hcall]
      refine ⟨s₂, ?_, hloads₁.trans hloads₂, hs₂⟩
      simp only [Option.bind_eq_bind, Option.bind_some, if_true,
        erase_loaded hv hloads.toExtends, hloop]
    · exact ih s hdeps' hv h hawait hs

theorem clear_false (D : ModDir) (f : FileName) : D.Clear false f :=
  fun h => absurd h Bool.false_ne_true

theorem loadModMulti_ordered (hacyclic : D.Acyclic) (fuel : Nat) (f : FileName) (s s' : LoadState)
    (hf : f ∈ D.modsToLoad) (hv : D.Valid s) (h : s.otherMods.length < fuel)
    (hawait : D.Awaits f s) (hs : D.Ordered s.loaded)
    (heq : D.loadModMulti false fuel f s = some (true, s')) : D.Ordered s'.loaded := by
  induction fuel generalizing f s s' with
  | zero => omega
  | succ fuel ih =>
    obtain ⟨s₁, hloop, hloads, hs₁⟩ := loadDependencies_ordered hacyclic
      (fun f s hf hv h => loadModMulti_clear fuel f s hf (D.clear_false f) hv h) ih f
      (D.getModDependencies f) s hf (fun _ hd => hd) hv (Nat.le_of_lt_succ h) hawait hs
    obtain ⟨s₂, hloop₂, _, hgone⟩ := loadDependencies_clear
      (fun f s => loadModMulti_clear fuel f s) (D.getModDependencies f) s hv (Nat.le_of_lt_succ h)
      fun d _ _ => D.clear_false d
    rw [hloop, Option.some.injEq, Prod.mk.injEq] at hloop₂
    obtain ⟨-, rfl⟩ := hloop₂
    simp only [loadModMulti, Bool.false_and, Bool.false_eq_true, if_false, hloop,
      Option.bind_eq_bind, Option.bind_some, if_true, Option.pure_def, Option.some.injEq,
      Prod.mk.injEq, true_and] at heq
    subst heq
    apply hs₁.snoc
    intro b hdep
    exact (hloads.mem (hawait b (.single hdep))).resolve_left (hgone b hdep.2.2)

/-! ## The whole directory -/

theorem Valid.tail (hv : D.Valid s) (hcons : s.otherMods = f :: rest) :
    D.Valid { s with otherMods := rest } :=
  ⟨(List.nodup_cons.mp (hcons ▸ hv.nodup)).2, fun x hx => hv.mem x (by simp [hcons, hx])⟩

/-- The loop over the set ends with all mods loaded that are not to be skipped, if there are no
others. -/
theorem loadLoop_clear (fuel : Nat) (s : LoadState) (hv : D.Valid s)
    (hclear : ∀ f ∈ s.otherMods, D.Clear preinit f) (h : s.otherMods.length < fuel) :
    ∃ s', D.loadLoop preinit fuel s = some s' ∧
      (s.loaded ++ s.otherMods).Perm s'.loaded := by
  induction fuel generalizing s with
  | zero => omega
  | succ fuel ih =>
    rw [loadLoop]
    split
    · next hnil => exact ⟨s, rfl, by simp [hnil]⟩
    · next f rest hcons =>
      rw [hcons] at h hclear
      have hv' := hv.tail hcons
      obtain ⟨s₁, hcall, hloads⟩ := loadModMulti_clear (fuel + 1) f _
        (hv.mem f (by simp [hcons])) (hclear f List.mem_cons_self) hv' (Nat.lt_of_succ_lt h)
      obtain ⟨new, hloaded, hperm, _⟩ := hloads.perm
      have hsub := hloads.otherMods
      obtain ⟨s₂, hloop, hperm₂⟩ := ih s₁ (hv'.extends hloads.toExtends)
        (fun f hf => hclear f (List.mem_cons_of_mem _ (hsub.subset hf)))
        (hsub.length_le.trans_lt (Nat.lt_of_succ_lt_succ h))
      refine ⟨s₂, by rw [hcall]; exact hloop, ?_⟩
      calc s.loaded ++ s.otherMods
          _ ~ s.loaded ++ (new ++ s₁.otherMods) := by rw [hcons]; exact hperm.append_left _
          _ = s₁.loaded ++ s₁.otherMods := by rw [hloaded, List.append_assoc]
          _ ~ s₂.loaded := hperm₂

/-- With acyclic dependencies the loop keeps the order. -/
theorem loadLoop_ordered (hacyclic : D.Acyclic) (fuel : Nat) (s s' : LoadState) (hv : D.Valid s)
    (h : s.otherMods.length < fuel) (hs : D.Ordered s.loaded)
    (hall : ∀ x ∈ D.modsToLoad, x ∈ s.otherMods ∨ x ∈ s.loaded)
    (heq : D.loadLoop false fuel s = some s') : D.Ordered s'.loaded := by
  induction fuel generalizing s with
  | zero => omega
  | succ fuel ih =>
    rw [loadLoop] at heq
    split at heq
    · cases heq
      exact hs
    · next f rest hcons =>
      rw [hcons] at h
      have hv' := hv.tail hcons
      have hf := hv.mem f (by simp [hcons])
      obtain ⟨s₁, hcall, hloads⟩ := loadModMulti_clear (fuel + 1) f _ hf (D.clear_false f) hv'
        (Nat.lt_of_succ_lt h)
      rw [hcall] at heq
      have hawait : D.Awaits f { s with otherMods := rest } := by
        intro d hd
        have hmem : d ∈ D.modsToLoad := by
          obtain ⟨_, _, hlast⟩ := Relation.TransGen.tail'_iff.mp hd
          exact hlast.2.1
        rcases hall d hmem with hother | hloaded
        · rw [hcons, List.mem_cons] at hother
          rcases hother with rfl | hother
          · exact absurd hd (hacyclic d)
          · exact .inl hother
        · exact .inr hloaded
      have hs₁ := loadModMulti_ordered hacyclic (fuel + 1) f _ s₁ hf hv' (Nat.lt_of_succ_lt h)
        hawait hs hcall
      obtain ⟨new, hloaded, hperm, _⟩ := hloads.perm
      refine ih s₁ (hv'.extends hloads.toExtends)
        (hloads.otherMods.length_le.trans_lt (Nat.lt_of_succ_lt_succ h)) hs₁ (fun x hx => ?_) heq
      have hmem : x ∈ new ++ s₁.otherMods ∨ x ∈ s.loaded := by
        rcases hall x hx with hother | hloaded
        · exact .inl (hperm.subset (by simpa [hcons] using hother))
        · exact .inr hloaded
      rw [List.mem_append] at hmem
      rw [hloaded, List.mem_append]
      tauto

theorem valid_modsToLoad (D : ModDir) (order : List FileName) (h : order.Perm D.modsToLoad) :
    D.Valid ⟨order, []⟩ :=
  ⟨h.nodup_iff.mpr D.nodup_modsToLoad, fun _ hx => h.subset hx⟩

theorem loadInOrder_ordered (D : ModDir) (order : List FileName) (horder : order.Perm D.modsToLoad)
    (fuel : Nat) (h : D.modsToLoad.length < fuel) :
    ∃ loaded, D.loadInOrder false fuel order = some loaded ∧ D.modsToLoad.Perm loaded ∧
      (D.Acyclic → D.Ordered loaded) := by
  have hv := D.valid_modsToLoad order horder
  have hlt : order.length < fuel := horder.length_eq ▸ h
  obtain ⟨s, hloop, hperm⟩ :=
    loadLoop_clear fuel ⟨order, []⟩ hv (fun f _ => D.clear_false f) hlt
  refine ⟨s.loaded, by rw [loadInOrder, hloop]; rfl, horder.symm.trans hperm, fun hacyclic => ?_⟩
  refine loadLoop_ordered hacyclic fuel ⟨order, []⟩ s hv hlt ?_
    (fun x hx => .inl (horder.symm.subset hx)) hloop
  intro before a after heq
  simp at heq

/-- **Loading all mods**: with enough rounds, `loadModsFromDirectory` loads every mod file of the
directory exactly once, and if no mod depends on itself, directly or not, each one after those that
it depends on. -/
theorem loadModsFromDirectory_ordered (D : ModDir) (fuel : Nat)
    (h : D.modsToLoad.length < fuel) :
    ∃ loaded, D.loadModsFromDirectory false fuel = some loaded ∧ loaded.Nodup ∧
      (∀ x, x ∈ loaded ↔ x ∈ D.entries ∧ isMod x = true) ∧ (D.Acyclic → D.Ordered loaded) := by
  obtain ⟨loaded, hload, hperm, hord⟩ := D.loadInOrder_ordered D.modsToLoad (.refl _) fuel h
  refine ⟨loaded, hload, hperm.nodup_iff.mp D.nodup_modsToLoad, fun x => ?_, hord⟩
  rw [← hperm.mem_iff, mem_modsToLoad]

/-- A directory with two mods, one of which depends on the other, and a file that is no mod. -/
def exampleDir : ModDir where
  entries := ["a.so".toList, "notes.txt".toList, "b.so".toList]
  getModDependencies := fun f => if f = "a.so".toList then ["b.so".toList] else []

theorem loadModsFromDirectory_exampleDir :
    ∃ loaded, exampleDir.loadModsFromDirectory false 3 = some loaded ∧ loaded.Nodup ∧
      (∀ x, x ∈ loaded ↔ x ∈ exampleDir.entries ∧ isMod x = true) ∧
      (exampleDir.Acyclic → exampleDir.Ordered loaded) :=
  loadModsFromDirectory_ordered exampleDir 3 (by decide)

end ModDir

end McpeLauncher.ModLoader
