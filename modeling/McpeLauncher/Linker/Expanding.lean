import McpeLauncher.Linker.LoadGroups

/-!
# The libraries that are found

What the first step of `find_libraries` has added to the libraries that were there, until it ends or
fails: libraries that are not linked, each needed by another one of them, but for the first.
-/

namespace McpeLauncher.Linker.Loaded

variable {ι : Type} [DecidableEq ι] {U : Universe ι} {s₀ s : Loaded ι} {root : ι} {new : List ι}
  {tasks : List (LoadTask ι)} {done : List (ι × Option ι)}

/-- The libraries `new` have been added to those of `s₀`. -/
structure Expanding (U : Universe ι) (s₀ : Loaded ι) (new : List ι) (tasks : List (LoadTask ι))
    (done : List (ι × Option ι)) (s : Loaded ι) : Prop where
  solist : s.solist = s₀.solist ++ new
  nodup : s.solist.Nodup
  mem_all : ∀ x ∈ s.solist, x ∈ U.all
  links : ∀ p y, p ∈ s.parents y ↔ y ∈ s.children p
  mem_of_link : ∀ p, ∀ y ∈ s.children p, p ∈ s.solist ∧ y ∈ s.solist
  children_old : ∀ x ∉ new, s.children x = s₀.children x
  children_new : ∀ x ∈ new, s.children x = (done.filter (·.2 = some x)).map Prod.fst
  needed : ∀ x ∈ new, ∃ names, List.Forall₂ U.Stands names (s.children x) ∧
    U.needed x = names ++ (tasks.filter (·.neededBy = some x)).map LoadTask.name
  isLinked_old : ∀ x ∈ s₀.solist, s.isLinked x = s₀.isLinked x
  localGroupRoot_old : ∀ x ∈ s₀.solist, s.localGroupRoot x = s₀.localGroupRoot x
  refCount_old : ∀ x ∈ s₀.solist, s.refCount x = s₀.refCount x
  keeps_old : ∀ x ∈ s₀.solist, s.keeps x = s₀.keeps x
  isLinked_new : ∀ x ∈ new, s.isLinked x = false
  refCount_new : ∀ x ∈ new, s.refCount x = 0
  neededBy_tasks : ∀ t ∈ tasks, ∃ x ∈ new, t.neededBy = some x
  neededBy_done : ∀ t ∈ done, t.1 ∈ s.solist ∧ ∀ x, t.2 = some x → x ∈ new

/-- Every new library but the first is needed by another one. -/
def Needed (root : ι) (new : List ι) (done : List (ι × Option ι)) : Prop :=
  ∀ x ∈ new, x ≠ root → ∃ y ∈ new, (x, some y) ∈ done

theorem links_addChild {s : Loaded ι} (h : ∀ p y, p ∈ s.parents y ↔ y ∈ s.children p) (si child : ι)
    (p y : ι) : p ∈ (s.addChild si child).parents y ↔ y ∈ (s.addChild si child).children p := by
  have hparents : p ∈ (s.addChild si child).parents y ↔
      p ∈ s.parents y ∨ p = si ∧ y = child := by
    by_cases hy : y = child
    · subst hy
      simp [addChild]
    · simp [addChild, hy]
  have hchildren : y ∈ (s.addChild si child).children p ↔
      y ∈ s.children p ∨ p = si ∧ y = child := by
    by_cases hp : p = si
    · subst hp
      simp [addChild]
    · simp [addChild, hp]
  rw [hparents, hchildren, h p y]

theorem children_addChild (s : Loaded ι) (si child x : ι) :
    (s.addChild si child).children x =
      if x = si then s.children si ++ [child] else s.children x := by
  simp only [addChild, Function.update_apply]

namespace Expanding

/-- A library without an address in the list has no links. -/
theorem children_eq_nil (h : Expanding U s₀ new tasks done s) {x : ι} (hx : x ∉ s.solist) :
    s.children x = [] ∧ s.parents x = [] := by
  refine ⟨List.eq_nil_iff_forall_not_mem.mpr fun y hy => hx (h.mem_of_link x y hy).1,
    List.eq_nil_iff_forall_not_mem.mpr fun p hp => ?_⟩
  exact hx (h.mem_of_link p x ((h.links p x).mp hp)).2

theorem not_mem_new (h : Expanding U s₀ new tasks done s) {x : ι} (hx : x ∈ s₀.solist) :
    x ∉ new := by
  have hnodup := h.nodup
  rw [h.solist] at hnodup
  exact fun hnew => List.disjoint_of_nodup_append hnodup hx hnew

/-- A library of the list fulfils a task. -/
theorem addChild {task : LoadTask ι} (h : Expanding U s₀ new (task :: tasks) done s) {si needing : ι}
    (hby : task.neededBy = some needing) (hsi : si ∈ s.solist) (hstands : U.Stands task.name si) :
    Expanding U s₀ new tasks (done ++ [(si, some needing)]) (s.addChild needing si) := by
  obtain ⟨y, hnew, hy⟩ := h.neededBy_tasks task (.head _)
  obtain rfl : needing = y := Option.some.inj (hby.symm.trans hy)
  have hmem : needing ∈ s.solist := by
    rw [h.solist]
    exact List.mem_append_right _ hnew
  refine { h with
    links := links_addChild h.links needing si
    mem_of_link := fun p y hy => ?_
    children_old := fun x hx => ?_
    children_new := fun x hx => ?_
    needed := fun x hx => ?_
    neededBy_tasks := fun t ht => h.neededBy_tasks t (.tail _ ht)
    neededBy_done := fun t ht => ?_ }
  · rw [children_addChild] at hy
    split at hy
    · next hp =>
      subst hp
      rcases List.mem_append.mp hy with hy | hy
      · exact h.mem_of_link p y hy
      · rw [List.mem_singleton.mp hy]
        exact ⟨hmem, hsi⟩
    · exact h.mem_of_link p y hy
  · have hne : x ≠ needing := fun heq => hx (heq ▸ hnew)
    rw [children_addChild, if_neg hne]
    exact h.children_old x hx
  · rw [children_addChild, List.filter_append, List.map_append]
    split
    · next heq =>
      subst heq
      rw [h.children_new x hx]
      simp
    · next hne =>
      have hne : ¬needing = x := fun heq => hne heq.symm
      rw [h.children_new x hx]
      simp [hne]
  · obtain ⟨names, hnames, hneeded⟩ := h.needed x hx
    rw [children_addChild]
    split
    · next heq =>
      subst heq
      rw [List.filter_cons, if_pos (by simpa using hby)] at hneeded
      refine ⟨names ++ [task.name], List.rel_append hnames (.cons hstands .nil), ?_⟩
      rw [hneeded, List.append_assoc]
      rfl
    · next hne =>
      have hnot : ¬task.neededBy = some x := by
        rw [hby]
        exact fun heq => hne (Option.some.inj heq).symm
      rw [List.filter_cons, if_neg (by simpa using hnot)] at hneeded
      exact ⟨names, hnames, hneeded⟩
  · rcases List.mem_append.mp ht with ht | ht
    · exact h.neededBy_done t ht
    · obtain rfl := List.mem_singleton.mp ht
      exact ⟨hsi, fun x hx => Option.some.inj hx ▸ hnew⟩

/-- A library is added to the list. -/
theorem soinfoAlloc (h : Expanding U s₀ new tasks done s) {si : ι} (hsi : si ∉ s.solist)
    (hall : si ∈ U.all) (keeps : Bool) :
    Expanding U s₀ (new ++ [si]) (tasks ++ (U.needed si).map fun name => ⟨name, some si⟩) done
      (s.soinfoAlloc si keeps) := by
  obtain ⟨hchildren, hparents⟩ := h.children_eq_nil hsi
  have hc : (s.soinfoAlloc si keeps).children = s.children := by
    rw [Loaded.soinfoAlloc, ← hchildren, Function.update_eq_self]
  have hp : (s.soinfoAlloc si keeps).parents = s.parents := by
    rw [Loaded.soinfoAlloc, ← hparents, Function.update_eq_self]
  have hsolist : (s.soinfoAlloc si keeps).solist = s.solist ++ [si] := rfl
  have hold {x : ι} (hx : x ∈ s₀.solist) : x ≠ si := by
    rintro rfl
    exact hsi (h.solist ▸ List.mem_append_left _ hx)
  have hnew {x : ι} (hx : x ∈ new) : x ≠ si := by
    rintro rfl
    exact hsi (h.solist ▸ List.mem_append_right _ hx)
  have htasks : ∀ t ∈ tasks, t.neededBy ≠ some si := fun t ht heq => by
    obtain ⟨x, hx, hby⟩ := h.neededBy_tasks t ht
    exact hnew hx (Option.some.inj (hby.symm.trans heq))
  have hdone : ∀ t ∈ done, t.2 ≠ some si := fun t ht heq =>
    hnew ((h.neededBy_done t ht).2 si heq) rfl
  have hnewtasks (x : ι) : (((U.needed si).map fun name => (⟨name, some si⟩ : LoadTask ι)).filter
      (·.neededBy = some x)).map LoadTask.name = if si = x then U.needed si else [] := by
    by_cases hx : si = x <;> simp [hx, List.filter_map, Function.comp_def]
  refine ⟨?_, ?_, ?_, ?_, ?_, ?_, ?_, ?_, ?_, ?_, ?_, ?_, ?_, ?_, ?_, ?_⟩
  · rw [hsolist, h.solist, List.append_assoc]
  · rw [hsolist, ← List.concat_eq_append]
    exact h.nodup.concat hsi
  · rw [hsolist]
    exact List.forall_mem_append.mpr ⟨h.mem_all, List.forall_mem_singleton.mpr hall⟩
  · rw [hc, hp]
    exact h.links
  · rw [hc, hsolist]
    exact fun p y hy => (h.mem_of_link p y hy).imp (List.mem_append_left _) (List.mem_append_left _)
  · rw [hc]
    exact fun x hx => h.children_old x fun hmem => hx (List.mem_append_left _ hmem)
  · rw [hc]
    refine List.forall_mem_append.mpr ⟨h.children_new, List.forall_mem_singleton.mpr ?_⟩
    rw [hchildren, List.filter_eq_nil_iff.mpr fun t ht => by simpa using hdone t ht]
    rfl
  · rw [hc]
    refine List.forall_mem_append.mpr ⟨fun x hx => ?_, List.forall_mem_singleton.mpr ⟨[], ?_, ?_⟩⟩
    · obtain ⟨names, hnames, hneeded⟩ := h.needed x hx
      refine ⟨names, hnames, ?_⟩
      rw [List.filter_append, List.map_append, hnewtasks, if_neg (hnew hx).symm, List.append_nil]
      exact hneeded
    · rw [hchildren]
      exact .nil
    · rw [List.filter_append, List.map_append, hnewtasks, if_pos rfl,
        List.filter_eq_nil_iff.mpr fun t ht => by simpa using htasks t ht]
      rfl
  · exact fun x hx => (Function.update_of_ne (hold hx) _ _).trans (h.isLinked_old x hx)
  · exact fun x hx => (Function.update_of_ne (hold hx) _ _).trans (h.localGroupRoot_old x hx)
  · exact fun x hx => (Function.update_of_ne (hold hx) _ _).trans (h.refCount_old x hx)
  · exact fun x hx => (Function.update_of_ne (hold hx) _ _).trans (h.keeps_old x hx)
  · exact List.forall_mem_append.mpr
      ⟨fun x hx => (Function.update_of_ne (hnew hx) _ _).trans (h.isLinked_new x hx),
        List.forall_mem_singleton.mpr (Function.update_self ..)⟩
  · exact List.forall_mem_append.mpr
      ⟨fun x hx => (Function.update_of_ne (hnew hx) _ _).trans (h.refCount_new x hx),
        List.forall_mem_singleton.mpr (Function.update_self ..)⟩
  · refine List.forall_mem_append.mpr ⟨fun t ht => ?_, fun t ht => ?_⟩
    · obtain ⟨x, hx, hby⟩ := h.neededBy_tasks t ht
      exact ⟨x, List.mem_append_left _ hx, hby⟩
    · obtain ⟨name, -, rfl⟩ := List.mem_map.mp ht
      exact ⟨si, List.mem_append_right _ (.head _), rfl⟩
  · rw [hsolist]
    intro t ht
    obtain ⟨hmem, hby⟩ := h.neededBy_done t ht
    exact ⟨List.mem_append_left _ hmem, fun x hx => List.mem_append_left _ (hby x hx)⟩

/-- A library that nobody of the new ones needs. -/
theorem addDone (h : Expanding U s₀ new tasks done s) {si : ι} (hsi : si ∈ s.solist) :
    Expanding U s₀ new tasks (done ++ [(si, none)]) s :=
  { h with
    children_new := fun x hx => by rw [h.children_new x hx, List.filter_append]; simp
    neededBy_done := List.forall_mem_append.mpr ⟨h.neededBy_done,
      List.forall_mem_singleton.mpr ⟨hsi, fun _ heq => nomatch heq⟩⟩ }

end Expanding

theorem Inv.expanding {refs : List ι} (h : Inv U s refs) : Expanding U s [] [] [] s where
  solist := (List.append_nil _).symm
  nodup := h.nodup
  mem_all := h.mem_all
  links := h.links
  mem_of_link := h.mem_of_link
  children_old _ _ := rfl
  children_new := List.forall_mem_nil _
  needed := List.forall_mem_nil _
  isLinked_old _ _ := rfl
  localGroupRoot_old _ _ := rfl
  refCount_old _ _ := rfl
  keeps_old _ _ := rfl
  isLinked_new := List.forall_mem_nil _
  refCount_new := List.forall_mem_nil _
  neededBy_tasks := List.forall_mem_nil _
  neededBy_done := List.forall_mem_nil _

omit [DecidableEq ι] in
theorem Needed.addChild {si needing : ι} (h : Needed root new done) :
    Needed root new (done ++ [(si, some needing)]) := fun x hx hne => by
  obtain ⟨y, hy, hmem⟩ := h x hx hne
  exact ⟨y, hy, List.mem_append_left _ hmem⟩

omit [DecidableEq ι] in
theorem Needed.soinfoAlloc {si needing : ι} (h : Needed root new done) (hneeding : needing ∈ new) :
    Needed root (new ++ [si]) (done ++ [(si, some needing)]) := fun x hx hne => by
  rcases List.mem_append.mp hx with hx | hx
  · obtain ⟨y, hy, hmem⟩ := h x hx hne
    exact ⟨y, List.mem_append_left _ hy, List.mem_append_left _ hmem⟩
  · obtain rfl := List.mem_singleton.mp hx
    exact ⟨needing, List.mem_append_left _ hneeding, List.mem_append_right _ (.head _)⟩

/-! ## The loop -/

variable {a : Attempt ι} {name : Name} {si : ι}

omit [DecidableEq ι] in
theorem stands_of_findLoadedLibraryBySoname
    (h : s.findLoadedLibraryBySoname U.toFiles name = some si) :
    si ∈ s.solist ∧ U.Stands name si := by
  rw [findLoadedLibraryBySoname] at h
  split at h
  · cases h
  · exact ⟨List.mem_of_find?_eq_some h, .inl (by simpa using List.find?_some h)⟩

theorem stands_of_findLibraryInternal (ha : a.Fits U) {isNew : Bool}
    (h : s.findLibraryInternal U.toFiles a name = some (si, isNew)) :
    U.Stands name si ∧ (si ∈ s.solist ↔ isNew = false) := by
  rw [findLibraryInternal] at h
  split at h
  · next hfound =>
    cases h
    obtain ⟨hmem, hstands⟩ := stands_of_findLoadedLibraryBySoname hfound
    exact ⟨hstands, iff_of_true hmem rfl⟩
  · obtain ⟨x, hx, h⟩ := Option.bind_eq_some_iff.mp h
    have hstands : U.Stands name x := .inr (ha name x hx)
    split at h
    · next hmem =>
      cases h
      exact ⟨hstands, iff_of_true hmem rfl⟩
    · next hmem =>
      split at h
      · cases h
      · split at h
        · cases h
          exact ⟨hstands, iff_of_false hmem Bool.noConfusion⟩
        · cases h

/-- What the loop still has to do. -/
def expandPotential (U : Universe ι) (tasks : List (LoadTask ι)) (s : Loaded ι) : Nat :=
  tasks.length + ∑ x ∈ U.all \ s.solist.toFinset, (U.needed x).length

/-- What the loop comes to. -/
structure Expanded (U : Universe ι) (s₀ : Loaded ι) (root : ι) (first : ι × Option ι) (found : Bool)
    (done : List (ι × Option ι)) (s : Loaded ι) : Prop where
  expanding : ∃ new tasks, Expanding U s₀ new tasks done s ∧ Needed root new done ∧
    (found = true → tasks = []) ∧ (root ∈ new ∨ new = [] ∧ found = true)
  head : done.head? = some first

theorem expandTasks_eq (ha : a.Fits U) {first : ι × Option ι} {fuel : Nat} :
    ∀ {new tasks done} {s : Loaded ι}, Expanding U s₀ new tasks done s → Needed root new done →
      (root ∈ new ∨ new = [] ∧ tasks = []) → done.head? = some first →
      expandPotential U tasks s < fuel →
      ∃ found done' s', expandTasks U.toFiles a fuel tasks done s = some (found, done', s') ∧
        Expanded U s₀ root first found done' s' := by
  induction fuel with
  | zero => intro _ _ _ _ _ _ _ _ hfuel; exact absurd hfuel (Nat.not_lt_zero _)
  | succ fuel ih =>
    intro new tasks done s h hneeded hroot hhead hfuel
    cases tasks with
    | nil =>
      refine ⟨true, done, s, rfl, ⟨new, [], h, hneeded, fun _ => rfl, ?_⟩, hhead⟩
      exact hroot.imp_right fun hnil => ⟨hnil.1, rfl⟩
    | cons task tasks =>
      have hmem : root ∈ new := hroot.resolve_right fun hnil => nomatch hnil.2
      obtain ⟨needing, hneeding, hby⟩ := h.neededBy_tasks task (.head _)
      have hhead' (t : ι × Option ι) : (done ++ [t]).head? = some first := by
        rw [List.head?_append, hhead]
        rfl
      rw [expandTasks]
      cases hfind : s.findLibraryInternal U.toFiles a task.name with
      | none =>
        exact ⟨false, done, s, rfl, ⟨new, task :: tasks, h, hneeded, Bool.noConfusion, .inl hmem⟩, hhead⟩
      | some found =>
        obtain ⟨si, isNew⟩ := found
        obtain ⟨hstands, hloaded⟩ := stands_of_findLibraryInternal ha hfind
        cases isNew with
        | false =>
          simp only [hby, addNeeded]
          refine ih (h.addChild hby (hloaded.mpr rfl) hstands) hneeded.addChild (.inl hmem)
            (hhead' _) ?_
          simp only [expandPotential, List.length_cons, Loaded.addChild] at hfuel ⊢
          omega
        | true =>
          have hnot : si ∉ s.solist := fun hsi => Bool.noConfusion (hloaded.mp hsi)
          have hall : si ∈ U.all := U.mem_all _ si hstands
          have halloc := h.soinfoAlloc hnot hall a.keeps
          have hmem' : si ∈ (s.soinfoAlloc si a.keeps).solist := List.mem_append_right _ (.head _)
          simp only [hby, addNeeded]
          refine ih (halloc.addChild hby hmem' hstands) (hneeded.soinfoAlloc hneeding)
            (.inl (List.mem_append_left _ hmem)) (hhead' _) ?_
          have hsum := BreadthFirst.sum_sdiff_concat hnot hall fun x => (U.needed x).length
          simp only [expandPotential, List.length_cons, List.length_append, List.length_map,
            Loaded.addChild, Loaded.soinfoAlloc] at hfuel ⊢
          omega

/-- **The first step of `find_libraries`**: the library that is asked for is not found, or the step
goes on until it ends or fails. -/
theorem Inv.expandTasks {refs : List ι} (h : Inv U s refs) (ha : a.Fits U) (name : Name) {fuel : Nat}
    (hfuel : 1 + ∑ x ∈ U.all, (U.needed x).length < fuel) :
    Loaded.expandTasks U.toFiles a fuel [⟨name, none⟩] [] s = some (false, [], s) ∨
      ∃ root found done s', Loaded.expandTasks U.toFiles a fuel [⟨name, none⟩] [] s =
        some (found, done, s') ∧ Expanded U s root (root, none) found done s' := by
  obtain ⟨fuel, rfl⟩ := Nat.exists_eq_succ_of_ne_zero (Nat.ne_of_gt (Nat.zero_lt_of_lt hfuel))
  rw [Loaded.expandTasks]
  cases hfind : s.findLibraryInternal U.toFiles a name with
  | none => exact .inl rfl
  | some found =>
    obtain ⟨si, isNew⟩ := found
    obtain ⟨hstands, hloaded⟩ := stands_of_findLibraryInternal ha hfind
    have hle : ∑ x ∈ U.all \ s.solist.toFinset, (U.needed x).length ≤
      ∑ x ∈ U.all, (U.needed x).length := Finset.sum_le_sum_of_subset Finset.sdiff_subset
    refine .inr ?_
    cases isNew with
    | false =>
      have hneeded : Needed si [] ([] ++ [(si, none)]) := List.forall_mem_nil _
      have hbound : expandPotential U [] s < fuel := by
        simp only [expandPotential, List.length_nil]
        omega
      obtain ⟨found, done, s', heq, hexpanded⟩ := expandTasks_eq ha
        (h.expanding.addDone (hloaded.mpr rfl)) hneeded (.inr ⟨rfl, rfl⟩) rfl hbound
      exact ⟨si, found, done, s', heq, hexpanded⟩
    | true =>
      have hnot : si ∉ s.solist := fun hsi => Bool.noConfusion (hloaded.mp hsi)
      have hall : si ∈ U.all := U.mem_all _ si hstands
      have hmem : si ∈ (s.soinfoAlloc si a.keeps).solist := List.mem_append_right _ (.head _)
      have halloc := (h.expanding.soinfoAlloc hnot hall a.keeps).addDone hmem
      have hneeded : Needed si ([] ++ [si]) ([] ++ [(si, none)]) := fun x hx hne =>
        absurd (List.mem_singleton.mp hx) hne
      have hbound : expandPotential U ([] ++ (U.needed si).map fun name => ⟨name, some si⟩)
          (s.soinfoAlloc si a.keeps) < fuel := by
        have hsum := BreadthFirst.sum_sdiff_concat hnot hall fun x => (U.needed x).length
        simp only [expandPotential, List.length_append, List.length_map, Loaded.soinfoAlloc,
          List.length_nil]
        omega
      obtain ⟨found, done, s', heq, hexpanded⟩ :=
        expandTasks_eq ha halloc hneeded (.inl (.head _)) rfl hbound
      exact ⟨si, found, done, s', heq, hexpanded⟩

end McpeLauncher.Linker.Loaded
