import McpeLauncher.Linker.Linking

/-!
# Runs of `dlopen` and `dlclose`

Whatever fails, and in whatever order libraries are opened and closed: what an open handle needs is
loaded and linked, and what is loaded is needed.
-/

namespace McpeLauncher.Linker
open BreadthFirst

variable {ι : Type} [DecidableEq ι] {U : Universe ι} {a : Attempt ι}

/-- More than any loop goes on. -/
def Universe.fuel (U : Universe ι) : Nat := U.all.card + ∑ x ∈ U.all, (U.needed x).length + 2

namespace Loaded

variable {s : Loaded ι} {refs : List ι}

/-- What `find_libraries` comes to. -/
inductive FindResult (U : Universe ι) (s : Loaded ι) (refs : List ι) :
    Option (Bool × Option ι × Loaded ι) → Prop
  | notFound : FindResult U s refs (some (false, none, s))
  | failed {root : ι} {s' : Loaded ι} (h : Failed U s root s') :
    FindResult U s refs (some (false, some root, s'))
  | linked {root r : ι} {s' : Loaded ι} (hroot : s'.localGroupRoot root = some r)
    (h : Inv U { s' with refCount := Function.update s'.refCount r (s'.refCount r + 1) }
      (root :: refs)) : FindResult U s refs (some (true, some root, s'))

/-- The new libraries are linked, or something is not. -/
theorem Expanding.linkLibraries {s₁ : Loaded ι} {root : ι} {new : List ι}
    {done : List (ι × Option ι)} (hexp : Expanding U s new [] done s₁) (h : Inv U s refs)
    (hneeded : Needed root new done) (hroot : root ∈ new ∨ new = [] ∧ true = true)
    (hhead : (root, none) ∈ done) {fuel : Nat} (hfuel : U.fuel ≤ fuel) :
    ∃ linked s', s₁.linkLibraries a fuel root done = some (linked, s') ∧
      FindResult U s refs (some (linked, some root, s')) := by
  have hmem : root ∈ s₁.solist := (hexp.neededBy_done _ hhead).1
  have hbound : 1 + ∑ x ∈ s₁.solist.toFinset, (s₁.children x).length < fuel := by
    have hle := hexp.sum_children_le h
    rw [Universe.fuel] at hfuel
    omega
  obtain ⟨order, horder, hord⟩ := s₁.localGroup_eq (List.mem_toFinset.mpr hmem)
    (fun x _ y hy => List.mem_toFinset.mpr (hexp.mem_of_link x y hy).2) hbound
  have horder_mem {x : ι} (hx : x ∈ order) : x ∈ s₁.solist := by
    obtain ⟨k, hk⟩ := (hord.mem_iff x).mp hx
    cases hk with
    | root => exact hmem
    | child _ _ hlink => exact (hexp.mem_of_link _ x hlink).2
  obtain ⟨localGroupRoot, hlink, hkept, -, hroots⟩ := linkGroup_eq a (some root) order s₁
  have hold (x : ι) (hx : x ∈ s.solist) : localGroupRoot x = s₁.localGroupRoot x :=
    hkept x ((hexp.isLinked_old x hx).trans (h.linked x hx))
  rw [Loaded.linkLibraries]
  simp only [horder, hord.head?_eq, hlink, Option.bind_eq_bind, Option.bind_some]
  by_cases hall : (order.all fun x => s₁.isLinked x || a.links x) = true
  swap
  · refine ⟨false, _, by simp only [hall]; rfl, ?_⟩
    obtain ⟨x, hx⟩ := not_forall.mp fun h => hall (List.all_eq_true.mpr h)
    obtain ⟨hx, hnot⟩ := Classical.not_imp.mp hx
    exact .failed ⟨new, [], done, hexp.withRoots hold, hneeded, hexp.root_mem h hroot (horder_mem hx)
      (Bool.or_eq_false_iff.mp (Bool.eq_false_iff.mpr hnot)).1⟩
  have hnew (x : ι) (hx : x ∈ new) : localGroupRoot x = some root :=
    hroots hall x ((hord.mem_iff x).mpr (hexp.exists_way h hneeded hx)) (hexp.isLinked_new x hx)
  have hold' (x : ι) (hx : x ∈ s.solist) : localGroupRoot x = s.localGroupRoot x :=
    (hold x hx).trans (hexp.localGroupRoot_old x hx)
  have hsome {x : ι} (hx : x ∈ s₁.solist) : ∃ r, localGroupRoot x = some r := by
    rcases hexp.mem_solist.mp hx with hx | hx
    · obtain ⟨r, -, hr, -⟩ := h.group x hx
      exact ⟨r, (hold' x hx).trans hr⟩
    · exact ⟨root, hnew x hx⟩
  have hlinked (x : ι) (hx : x ∈ s₁.solist) :
      (s₁.isLinked x || decide (x ∈ done.map Prod.fst)) = true := by
    rcases hexp.mem_solist.mp hx with hx | hx
    · rw [hexp.isLinked_old x hx, h.linked x hx, Bool.true_or]
    · rw [Bool.or_eq_true]
      refine .inr (decide_eq_true ?_)
      by_cases heq : x = root
      · exact heq ▸ List.mem_map_of_mem hhead
      · obtain ⟨y, -, hdone⟩ := hneeded x hx heq
        exact List.mem_map_of_mem hdone
  obtain ⟨r, hr⟩ := hsome hmem
  -- the reference of the call is counted behind those of the tasks
  have hcount (r' : ι) : Function.update (fun r =>
      s₁.refCount r + done.countP (countsFor { s₁ with localGroupRoot } r)) r
        (s₁.refCount r + done.countP (countsFor { s₁ with localGroupRoot } r) + 1) r' =
      s₁.refCount r' + done.countP (countsFor { s₁ with localGroupRoot } r') +
        if localGroupRoot root = some r' then 1 else 0 := by
    rw [Function.update_apply, hr]
    by_cases heq : r' = r
    · rw [if_pos heq, if_pos (congrArg some heq.symm), heq]
    · rw [if_neg heq, if_neg fun h => heq (Option.some.inj h).symm, Nat.add_zero]
  have hroot' : root ∈ new ∨ new = [] ∧ root ∈ s.solist := hroot.imp_right fun ⟨hnil, _⟩ =>
    ⟨hnil, (hexp.mem_solist.mp hmem).resolve_right (hnil ▸ List.not_mem_nil)⟩
  have hinv := hexp.link h hneeded hroot' hold' hnew hlinked hcount
  refine ⟨true, { s₁ with
    isLinked := fun x => s₁.isLinked x || decide (x ∈ done.map Prod.fst)
    localGroupRoot
    refCount := fun r => s₁.refCount r + done.countP (countsFor { s₁ with localGroupRoot } r) },
    ?_, .linked hr hinv⟩
  simp only [hall, foldl_setLinked, Bool.not_true, Bool.false_eq_true, if_false]
  rw [foldlM_countTask fun t ht => Option.isSome_iff_exists.mpr (hsome (hexp.neededBy_done t ht).1)]
  rfl

theorem Inv.findLibraries (h : Inv U s refs) (ha : a.Fits U) (name : Name) {fuel : Nat}
    (hfuel : U.fuel ≤ fuel) : FindResult U s refs (s.findLibraries U.toFiles a fuel name) := by
  have hbound : 1 + ∑ x ∈ U.all, (U.needed x).length < fuel := by
    rw [Universe.fuel] at hfuel
    omega
  rw [Loaded.findLibraries]
  rcases h.expandTasks ha name hbound with
    hnone | ⟨root, found, done, s₁, heq, ⟨new, tasks, hexp, hneeded, htasks, hroot⟩, hhead⟩
  · simp only [hnone, Option.bind_eq_bind, Option.bind_some]
    exact .notFound
  have hfailed (hmem : root ∈ new) : FindResult U s refs (some (false, some root, s₁)) :=
    .failed ⟨new, tasks, done, hexp, hneeded, hmem⟩
  have hnotall {f : ι → Bool} (hnot : ¬(done.all fun t => s₁.isLinked t.1 || f t.1) = true) :
      root ∈ new := by
    obtain ⟨t, ht, hlinked⟩ := not_all_linked hnot
    exact hexp.root_mem h hroot (hexp.neededBy_done t ht).1 hlinked
  simp only [heq, hhead, Option.bind_eq_bind, Option.bind_some, Option.map_some]
  cases found with
  | false => exact hfailed (hroot.resolve_right fun hnil => Bool.noConfusion hnil.2)
  | true =>
    by_cases hloads : (done.all fun t => s₁.isLinked t.1 || a.loads t.1) = true
    swap
    · simp only [hloads]
      exact hfailed (hnotall hloads)
    by_cases hprelinks : (done.all fun t => s₁.isLinked t.1 || a.prelinks t.1) = true
    swap
    · simp only [hloads, hprelinks]
      exact hfailed (hnotall hprelinks)
    obtain rfl := htasks rfl
    obtain ⟨linked, s', hlink, hresult⟩ := hexp.linkLibraries (a := a) h hneeded hroot
      (List.mem_of_mem_head? hhead) hfuel
    simp only [hloads, hprelinks, hlink, Option.bind_some, Bool.not_true, Bool.false_eq_true,
      if_false]
    exact hresult

theorem Inv.same (h : Inv U s refs) : Same s s :=
  ⟨rfl, rfl, h.links, fun _ _ => rfl, fun _ _ => rfl, fun _ _ => rfl, fun _ _ => rfl⟩

/-- **`find_library`** gives a library with a reference to it, or it changes nothing. -/
theorem Inv.findLibrary (h : Inv U s refs) (ha : a.Fits U) (name : Name) {fuel : Nat}
    (hfuel : U.fuel ≤ fuel) :
    (∃ root s', s.findLibrary U.toFiles a fuel name = some (some root, s') ∧
      Inv U s' (root :: refs)) ∨
    ∃ s', s.findLibrary U.toFiles a fuel name = some (none, s') ∧ Same s' s := by
  have hresult := h.findLibraries ha name hfuel
  rw [Loaded.findLibrary]
  generalize s.findLibraries U.toFiles a fuel name = result at hresult
  cases hresult with
  | notFound => exact .inr ⟨s, rfl, h.same⟩
  | @failed root s' hfailed =>
    obtain ⟨new, tasks, done, hexp, hneeded, hroot⟩ := hfailed
    obtain ⟨fuel, rfl⟩ := Nat.exists_eq_succ_of_ne_zero (Nat.ne_of_gt
      (Nat.lt_of_lt_of_le (Nat.succ_pos _) hfuel))
    obtain ⟨s'', hunload, hsame⟩ := hexp.soinfoUnload h hneeded hroot fuel
    refine .inr ⟨s'', ?_, hsame⟩
    simp only [Option.bind_eq_bind, Option.bind_some, hunload]
    rfl
  | @linked root r s' hr hinv =>
    refine .inl ⟨root, _, ?_, hinv⟩
    simp only [Option.bind_eq_bind, Option.bind_some, incrementRefCount, hr]
    rfl

/-- **`linker::load_library`** gives a library with a reference to it. -/
theorem Inv.loadLibrary (h : Inv U s refs) {si : ι} (hsi : si ∉ s.solist) (hall : si ∈ U.all)
    (hneeds : U.needed si = []) :
    ∃ s', s.loadLibrary si = some s' ∧ Inv U s' (si :: refs) := by
  have hmem : si ∈ (s.soinfoAlloc si false).solist := List.mem_append_right _ (.head _)
  have hexp := (h.expanding.soinfoAlloc hsi hall false).addDone hmem
  rw [hneeds] at hexp
  have hneeded : Needed si ([] ++ [si]) ([] ++ [(si, none)]) := fun x hx hne =>
    absurd (List.mem_singleton.mp hx) hne
  have hne {x : ι} (hx : x ∈ s.solist) : x ≠ si := fun heq => hsi (heq ▸ hx)
  have hroot : Function.update (s.soinfoAlloc si false).localGroupRoot si (some si) si = some si :=
    Function.update_self ..
  have hold (x : ι) (hx : x ∈ s.solist) :
      Function.update (s.soinfoAlloc si false).localGroupRoot si (some si) x = s.localGroupRoot x := by
    rw [Function.update_of_ne (hne hx)]
    exact Function.update_of_ne (hne hx) ..
  have hlinked (x : ι) (hx : x ∈ (s.soinfoAlloc si false).solist) :
      Function.update (s.soinfoAlloc si false).isLinked si true x = true := by
    rcases List.mem_append.mp hx with hx | hx
    · rw [Function.update_of_ne (hne hx)]
      exact (Function.update_of_ne (hne hx) ..).trans (h.linked x hx)
    · rw [List.mem_singleton.mp hx, Function.update_self]
  have hcount (r : ι) : Function.update (s.soinfoAlloc si false).refCount si
      ((s.soinfoAlloc si false).refCount si + 1) r = (s.soinfoAlloc si false).refCount r +
        ([] ++ [(si, (none : Option ι))]).countP (countsFor { s.soinfoAlloc si false with
          localGroupRoot := Function.update (s.soinfoAlloc si false).localGroupRoot si (some si) } r) +
        if Function.update (s.soinfoAlloc si false).localGroupRoot si (some si) si = some r then 1
        else 0 := by
    rw [hroot, Function.update_apply]
    have hcounts : ([] ++ [(si, (none : Option ι))]).countP (countsFor { s.soinfoAlloc si false with
        localGroupRoot := Function.update (s.soinfoAlloc si false).localGroupRoot si (some si) } r) =
        0 := by
      simp [countsFor]
    rw [hcounts]
    by_cases heq : r = si
    · rw [if_pos heq, if_pos (congrArg some heq.symm), heq]
    · rw [if_neg heq, if_neg fun h => heq (Option.some.inj h).symm]
      rfl
  refine ⟨_, ?_, hexp.link h hneeded (.inl (.head _)) hold (fun x hx => ?_) hlinked hcount⟩
  · rw [Loaded.loadLibrary, incrementRefCount]
    simp only [hroot, Option.bind_eq_bind, Option.bind_some]
    rfl
  · rw [List.mem_singleton.mp hx, hroot]

end Loaded

/-! ## Clients -/

variable {c : Client ι} {fuel : Nat}

/-- What may happen at a call. -/
def Call.Fits (U : Universe ι) : Call ι → Prop
  | .dlopen _ a => a.Fits U
  | .loadLibrary si => si ∈ U.all ∧ U.needed si = []
  | .dlclose _ | .unloadLibrary _ => True

open Loaded

theorem inv_start (U : Universe ι) : Inv U (Client.start : Client ι).loaded [] where
  nodup := .nil
  mem_all := List.forall_mem_nil _
  links _ _ := iff_of_false List.not_mem_nil List.not_mem_nil
  mem_of_link _ := List.forall_mem_nil _
  needed := List.forall_mem_nil _
  linked := List.forall_mem_nil _
  group := List.forall_mem_nil _
  parent := List.forall_mem_nil _
  mem_refs := List.forall_mem_nil _
  count := List.forall_mem_nil _
  alive := List.forall_mem_nil _
  older := ⟨fun _ => 0, fun _ => List.forall_mem_nil _⟩

theorem Loaded.Inv.length_lt {s : Loaded ι} {refs : List ι} (h : Inv U s refs)
    (hfuel : U.fuel ≤ fuel) : s.solist.length < fuel := by
  have hsub : s.solist.toFinset ⊆ U.all := fun x hx => h.mem_all x (List.mem_toFinset.mp hx)
  have hcard := Finset.card_le_card hsub
  rw [List.toFinset_card_of_nodup h.nodup] at hcard
  rw [Universe.fuel] at hfuel
  omega

/-- A client closes a handle. -/
theorem Loaded.Inv.dlclose (h : Inv U c.loaded c.handles) (hfuel : U.fuel ≤ fuel) {si : ι}
    (hsi : si ∈ c.handles) :
    ∃ s, c.loaded.soinfoUnload fuel si = some s ∧ Inv U s (c.handles.erase si) := by
  obtain ⟨s, hs, hinv, -⟩ :=
    (h.perm (List.perm_cons_erase hsi)).soinfoUnload (h.length_lt hfuel)
  exact ⟨s, hs, hinv⟩

/-- **Every call keeps the invariant.** -/
theorem Loaded.Inv.call (h : Inv U c.loaded c.handles) (hfuel : U.fuel ≤ fuel) {call : Call ι}
    (hfits : call.Fits U) :
    ∃ c', c.call U.toFiles fuel call = some c' ∧ Inv U c'.loaded c'.handles := by
  cases call with
  | dlopen name a =>
    rcases h.findLibrary hfits name hfuel with ⟨root, s, hs, hinv⟩ | ⟨s, hs, hsame⟩
    · exact ⟨⟨s, root :: c.handles⟩, by rw [Client.call, hs]; rfl, hinv⟩
    · exact ⟨⟨s, c.handles⟩, by rw [Client.call, hs]; rfl, h.congr hsame⟩
  | loadLibrary si =>
    by_cases hsi : si ∈ c.loaded.solist
    · exact ⟨c, by rw [Client.call, if_pos hsi], h⟩
    · obtain ⟨s, hs, hinv⟩ := h.loadLibrary hsi hfits.1 hfits.2
      exact ⟨⟨s, si :: c.handles⟩, by rw [Client.call, if_neg hsi, hs]; rfl, hinv⟩
  | dlclose si =>
    by_cases hsi : si ∈ c.handles
    · obtain ⟨s, hs, hinv⟩ := h.dlclose hfuel hsi
      exact ⟨⟨s, c.handles.erase si⟩, by rw [Client.call, if_pos hsi, hs]; rfl, hinv⟩
    · exact ⟨c, by rw [Client.call, if_neg hsi], h⟩
  | unloadLibrary si =>
    by_cases hsi : si ∈ c.handles
    · obtain ⟨root, -, hroot, -⟩ := h.group si (h.mem_refs si hsi)
      by_cases hone : c.loaded.refCount root = 1
      · obtain ⟨s, hs, hinv⟩ := h.dlclose hfuel hsi
        refine ⟨⟨s, c.handles.erase si⟩, ?_, hinv⟩
        simp [Client.call, hsi, unloadLibrary, hroot, hone, hs]
      · refine ⟨c, ?_, h⟩
        simp [Client.call, hsi, unloadLibrary, hroot, hone]
    · exact ⟨c, by rw [Client.call, if_neg hsi], h⟩

theorem foldlM_call (hfuel : U.fuel ≤ fuel) {calls : List (Call ι)}
    (hfits : ∀ call ∈ calls, call.Fits U) (h : Inv U c.loaded c.handles) :
    ∃ c', calls.foldlM (Client.call U.toFiles fuel) c = some c' ∧ Inv U c'.loaded c'.handles := by
  induction calls generalizing c with
  | nil => exact ⟨c, rfl, h⟩
  | cons call calls ih =>
    obtain ⟨hcall, hrest⟩ := List.forall_mem_cons.mp hfits
    obtain ⟨c₁, hc₁, h₁⟩ := h.call hfuel hcall
    obtain ⟨c₂, hc₂, h₂⟩ := ih hrest h₁
    exact ⟨c₂, by rw [List.foldlM_cons, hc₁]; exact hc₂, h₂⟩

/-! ## Every run -/

/-- A library that is loaded for another one: it is needed by it, is in its group, or is loaded for
one that is. -/
abbrev LoadedFor (s : Loaded ι) : ι → ι → Prop :=
  Relation.ReflTransGen fun x y => y ∈ s.children x ∨ s.localGroupRoot x = s.localGroupRoot y

/-- What holds of the libraries and of the handles that are open. -/
structure Consistent (U : Universe ι) (c : Client ι) : Prop where
  handles : ∀ x ∈ c.handles, x ∈ c.loaded.solist
  linked : ∀ x ∈ c.loaded.solist, c.loaded.isLinked x = true
  /-- Whatever is needed is loaded. -/
  needed : ∀ x ∈ c.loaded.solist,
    List.Forall₂ (fun name y => U.Stands name y ∧ y ∈ c.loaded.solist) (U.needed x)
      (c.loaded.children x)
  /-- Whatever is loaded is loaded for a handle, or for a group that its flags keep. -/
  used : ∀ y ∈ c.loaded.solist, ∃ x ∈ c.loaded.solist, LoadedFor c.loaded x y ∧
    (x ∈ c.handles ∨ ∃ root, c.loaded.localGroupRoot x = some root ∧ c.loaded.keeps root = true)

theorem Loaded.Inv.exists_used (h : Inv U c.loaded c.handles) {born : ι → Nat}
    (hborn : ∀ x, ∀ y ∈ c.loaded.children x, ∀ root root', c.loaded.localGroupRoot x = some root →
      c.loaded.localGroupRoot y = some root' → root ≠ root' → born root' < born root)
    {y root : ι} (hy : y ∈ c.loaded.solist) (hroot : c.loaded.localGroupRoot y = some root) :
    ∃ x ∈ c.loaded.solist, LoadedFor c.loaded x y ∧
      (x ∈ c.handles ∨ ∃ root, c.loaded.localGroupRoot x = some root ∧ c.loaded.keeps root = true) := by
  induction hn : c.loaded.solist.toFinset.sup born - born root using Nat.strong_induction_on
    generalizing y root with
  | _ n ih =>
    obtain ⟨r, hr, hgroup, hself⟩ := h.group y hy
    obtain rfl : root = r := Option.some.inj (hroot.symm.trans hgroup)
    by_cases hzero : c.loaded.refCount root = 0
    · exact ⟨y, hy, .refl, .inr ⟨root, hroot, h.alive root hr hself hzero⟩⟩
    have hcount := h.count root hr hself
    by_cases hhandles : c.handles.countP (c.loaded.localGroupRoot · = some root) = 0
    · -- a library of a younger group refers to the group
      have houtside : c.loaded.outside root ≠ 0 := by omega
      obtain ⟨x, hx, hne⟩ := Finset.exists_ne_zero_of_sum_ne_zero houtside
      obtain ⟨hxmem, hxroot⟩ := Finset.mem_filter.mp hx
      have hxmem := List.mem_toFinset.mp hxmem
      obtain ⟨z, hz, hzroot⟩ := List.countP_pos_iff.mp (Nat.pos_of_ne_zero hne)
      have hzroot : c.loaded.localGroupRoot z = some root := of_decide_eq_true hzroot
      obtain ⟨r', hr', hgroup', -⟩ := h.group x hxmem
      have hne : r' ≠ root := fun heq => hxroot (heq ▸ hgroup')
      have hlt := hborn x z hz r' root hgroup' hzroot hne
      have hle : born r' ≤ c.loaded.solist.toFinset.sup born :=
        Finset.le_sup (List.mem_toFinset.mpr hr')
      obtain ⟨w, hw, hfor, hcase⟩ := ih _ (by omega) hxmem hgroup' rfl
      exact ⟨w, hw, (hfor.tail (.inl hz)).tail (.inr (hzroot.trans hroot.symm)), hcase⟩
    · obtain ⟨x, hx, hxroot⟩ := List.countP_pos_iff.mp (Nat.pos_of_ne_zero hhandles)
      have hxroot : c.loaded.localGroupRoot x = some root := of_decide_eq_true hxroot
      exact ⟨x, h.mem_refs x hx, .single (.inr (hxroot.trans hroot.symm)), .inl hx⟩

theorem Loaded.Inv.consistent (h : Inv U c.loaded c.handles) : Consistent U c where
  handles := h.mem_refs
  linked := h.linked
  needed x hx := by
    have hmem : ∀ y ∈ c.loaded.children x, y ∈ c.loaded.solist := fun y hy =>
      (h.mem_of_link x y hy).2
    have hneeded := h.needed x hx
    generalize c.loaded.children x = children at hneeded hmem ⊢
    generalize U.needed x = names at hneeded ⊢
    induction hneeded with
    | nil => exact .nil
    | cons hstands _ ih =>
      obtain ⟨hy, hrest⟩ := List.forall_mem_cons.mp hmem
      exact .cons ⟨hstands, hy⟩ (ih hrest)
  used y hy := by
    obtain ⟨born, hborn⟩ := h.older
    obtain ⟨root, -, hroot, -⟩ := h.group y hy
    exact h.exists_used hborn hy hroot

/-- **In every run** of opening and closing libraries, with calls that may fail anywhere, what is
loaded is linked, has what it needs, and is used. -/
theorem run_consistent (U : Universe ι) (hfuel : U.fuel ≤ fuel) {calls : List (Call ι)}
    (hfits : ∀ call ∈ calls, call.Fits U) :
    ∃ c, calls.foldlM (Client.call U.toFiles fuel) Client.start = some c ∧ Consistent U c := by
  obtain ⟨c, hc, hinv⟩ := foldlM_call hfuel hfits (inv_start U)
  exact ⟨c, hc, hinv.consistent⟩

/-- Two libraries; the first needs the other one. -/
def twoFiles (name : Name) : Option Bool :=
  if name = [97] then some true else if name = [98] then some false else none

/-- The universe of these libraries. -/
def twoLibsUniverse : Universe Bool where
  soname _ := none
  needed si := if si then [[98]] else []
  all := Finset.univ
  Opens name si := twoFiles name = some si
  rank si := si.toNat
  mem_all _ _ _ := Finset.mem_univ _
  rank_lt si name hname child hchild := by
    cases si with
    | false => cases hname
    | true =>
      obtain rfl := List.mem_singleton.mp hname
      obtain rfl : false = child := Option.some.inj (hchild.resolve_left fun h => nomatch h)
      decide

/-- Nothing fails but the linking of what is in the list. -/
def attempt (failing : List Bool) : Attempt Bool :=
  ⟨twoFiles, fun _ => true, fun _ => true, fun _ => true, (· ∉ failing), false, false⟩

theorem run_twoLibs : ∃ c,
    [Call.dlopen [97] (attempt []), .dlopen [97] (attempt []), .dlclose true].foldlM
      (Client.call twoLibsUniverse.toFiles 5) Client.start = some c ∧ Consistent twoLibsUniverse c :=
  run_consistent twoLibsUniverse (by decide) (by
    refine List.forall_mem_cons.mpr ⟨fun _ _ h => h, List.forall_mem_cons.mpr ⟨fun _ _ h => h,
      List.forall_mem_singleton.mpr trivial⟩⟩)

end McpeLauncher.Linker
