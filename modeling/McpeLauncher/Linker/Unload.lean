import McpeLauncher.Linker.LoadedLibraries
import Mathlib.Data.Finset.Max

/-!
# Unloading a group

When nothing outside of a group refers to it, `soinfo_unload_impl` unloads all of it: what it unloads
next is what no library needs any more. With a cycle behind the root something would be left.
-/

namespace McpeLauncher.Linker.Loaded
open BreadthFirst

variable {ι : Type} [DecidableEq ι] {s : Loaded ι} {root si : ι} {G : ι → Prop}

/-- A child that is not in the group. -/
def isExternal (s : Loaded ι) (root child : ι) : Bool :=
  s.isLinked child && s.localGroupRoot child ≠ some root

/-- The libraries of `G` are unloaded with `root`. -/
structure Unloads (s : Loaded ι) (root : ι) (G : ι → Prop) : Prop where
  nodup : s.solist.Nodup
  mem : ∀ x, G x → x ∈ s.solist
  root_mem : G root
  links : ∀ p y, p ∈ s.parents y ↔ y ∈ s.children p
  parent : ∀ y, G y → ∀ p ∈ s.parents y, G p
  exists_parent : ∀ y, G y → y ≠ root → s.parents y ≠ []
  inner : ∀ x, G x → ∀ y ∈ s.children x, (s.isExternal root y = false ↔ G y)
  acyclic : ∃ rank : ι → Nat, ∀ x y, y ∈ s.children x → rank y < rank x

/-! ## The lists of children and parents -/

/-- The libraries of `L` have been gone through. -/
def without (s : Loaded ι) (L : List ι) : Loaded ι :=
  { s with
    children := fun x => if x ∈ L then [] else s.children x
    parents := fun y => (s.parents y).filter (· ∉ L) }

/-- Moreover the children `done` of `si` have been gone through. -/
def withoutChildren (s : Loaded ι) (L : List ι) (si : ι) (done : List ι) : Loaded ι :=
  { s.without L with
    parents := fun y => (s.parents y).filter fun p => p ∉ L ∧ ¬(p = si ∧ y ∈ done) }

theorem without_nil (s : Loaded ι) : s.without [] = s := by
  simp [without]

theorem withoutChildren_nil (s : Loaded ι) (L : List ι) (si : ι) :
    s.withoutChildren L si [] = s.without L := by
  simp [withoutChildren, without]

theorem removeParent_withoutChildren (s : Loaded ι) (L : List ι) (si : ι) (done : List ι)
    (child : ι) : (s.withoutChildren L si done).removeParent child si =
      s.withoutChildren L si (done ++ [child]) := by
  have hparents : Function.update (s.withoutChildren L si done).parents child
      (((s.withoutChildren L si done).parents child).filter (· ≠ si)) =
      (s.withoutChildren L si (done ++ [child])).parents := by
    funext y
    by_cases hy : y = child
    · subst hy
      rw [Function.update_self, withoutChildren, withoutChildren, List.filter_filter]
      refine List.filter_congr fun p _ => ?_
      by_cases hp : p = si <;> simp [hp]
    · rw [Function.update_of_ne hy, withoutChildren, withoutChildren]
      simp [hy]
  rw [removeParent, hparents]
  rfl

theorem Unloads.without_concat (h : Unloads s root G) (L : List ι) (si : ι) :
    { s.withoutChildren L si (s.children si) with
      children := Function.update (s.withoutChildren L si (s.children si)).children si [] } =
      s.without (L ++ [si]) := by
  have hchildren : Function.update (s.withoutChildren L si (s.children si)).children si [] =
      (s.without (L ++ [si])).children := by
    funext x
    by_cases hx : x = si
    · simp [hx, without]
    · simp [hx, without, withoutChildren]
  have hparents : (s.withoutChildren L si (s.children si)).parents =
      (s.without (L ++ [si])).parents := by
    funext y
    refine List.filter_congr fun p hp => ?_
    by_cases hsi : p = si
    · have hy : y ∈ s.children si := hsi ▸ (h.links p y).mp hp
      simp [hsi, hy]
    · simp [hsi]
  rw [hchildren]
  simp only [without, withoutChildren] at hparents ⊢
  rw [hparents]

/-! ## The loops -/

/-- What the loop over the children puts into the lists. -/
theorem Unloads.unloadChildren_eq (h : Unloads s root G) (hsi : G si) {L : List ι} :
    ∀ (children done : List ι) (l : UnloadLists ι), s.children si = done ++ children →
      (∀ x ∈ l.localUnloadList, G x) →
      ∃ put, (∀ y ∈ put, G y) ∧ put.length ≤ children.length ∧
        (∀ y ∈ children, G y → y ∉ l.localUnloadList →
          (∀ p ∈ s.parents y, p ∈ L ++ [si]) → y ∈ put) ∧
        unloadChildren root si children l (s.withoutChildren L si done) =
          ({ l with
             unloadList := l.unloadList ++ put
             externalUnloadList :=
               l.externalUnloadList ++ children.filter (s.isExternal root) },
           s.withoutChildren L si (s.children si)) := by
  intro children
  induction children with
  | nil =>
    intro done l hdone _
    refine ⟨[], List.forall_mem_nil _, le_rfl, List.forall_mem_nil _, ?_⟩
    rw [hdone, List.append_nil]
    simp [unloadChildren]
  | cons child children ih =>
    intro done l hdone hlocal
    have hchild : child ∈ s.children si := hdone ▸ List.mem_append_right _ (.head _)
    have hinner := h.inner si hsi child hchild
    have hdone' : s.children si = (done ++ [child]) ++ children := by
      rw [hdone, List.append_assoc, List.singleton_append]
    rw [unloadChildren, removeParent_withoutChildren]
    have hparents : (s.withoutChildren L si (done ++ [child])).parents child = [] ↔
        ∀ p ∈ s.parents child, p ∈ L ++ [si] := by
      simp only [withoutChildren, List.filter_eq_nil_iff, List.mem_append, List.mem_singleton]
      refine forall₂_congr fun p _ => ?_
      by_cases hp : p = si <;> simp [hp]
    have hfield : (s.withoutChildren L si (done ++ [child])).isExternal root child =
        s.isExternal root child := rfl
    by_cases hmem : child ∈ l.localUnloadList
    · have hexternal : s.isExternal root child = false := hinner.mpr (hlocal child hmem)
      obtain ⟨put, hput, hlength, hready, heq⟩ := ih _ l hdone' hlocal
      refine ⟨put, hput, hlength.trans (Nat.le_succ _), fun y hy hG hnot hall => ?_, ?_⟩
      · rcases List.mem_cons.mp hy with rfl | hy
        · exact absurd hmem hnot
        · exact hready y hy hG hnot hall
      · rw [putChild, if_pos hmem, heq, List.filter_cons, hexternal]
        rfl
    cases hexternal : s.isExternal root child with
    | true =>
      have hnot : ¬G child := fun hG => by rw [hinner.mpr hG] at hexternal; cases hexternal
      obtain ⟨put, hput, hlength, hready, heq⟩ := ih _
        { l with externalUnloadList := l.externalUnloadList ++ [child] } hdone' hlocal
      refine ⟨put, hput, hlength.trans (Nat.le_succ _), fun y hy hG hlocal hall => ?_, ?_⟩
      · rcases List.mem_cons.mp hy with rfl | hy
        · exact absurd hG hnot
        · exact hready y hy hG hlocal hall
      · have hput : (s.withoutChildren L si (done ++ [child])).putChild root child l =
            { l with externalUnloadList := l.externalUnloadList ++ [child] } := by
          rw [putChild, if_neg hmem]
          exact if_pos (hfield.trans hexternal)
        rw [hput, heq, List.filter_cons, if_pos hexternal, List.append_assoc]
        rfl
    | false =>
      have hput : (s.withoutChildren L si (done ++ [child])).putChild root child l =
          if ((s.withoutChildren L si (done ++ [child])).parents child).isEmpty then
            { l with unloadList := l.unloadList ++ [child] }
          else l := by
        rw [putChild, if_neg hmem]
        exact if_neg (Bool.eq_false_iff.mp (hfield.trans hexternal))
      rw [hput]
      split
      · next hempty =>
        obtain ⟨put, hput, hlength, hready, heq⟩ := ih _
          { l with unloadList := l.unloadList ++ [child] } hdone' hlocal
        refine ⟨child :: put, List.forall_mem_cons.mpr ⟨hinner.mp hexternal, hput⟩,
          Nat.succ_le_succ hlength, fun y hy hG hnot hall => ?_, ?_⟩
        · rcases List.mem_cons.mp hy with rfl | hy
          · exact .head _
          · exact .tail _ (hready y hy hG hnot hall)
        · rw [heq, List.filter_cons, hexternal, List.append_assoc]
          rfl
      · next hempty =>
        obtain ⟨put, hput, hlength, hready, heq⟩ := ih _ l hdone' hlocal
        refine ⟨put, hput, hlength.trans (Nat.le_succ _), fun y hy hG hnot hall => ?_, ?_⟩
        · rcases List.mem_cons.mp hy with rfl | hy
          · exact absurd (List.isEmpty_iff.mpr (hparents.mpr hall)) hempty
          · exact hready y hy hG hnot hall
        · rw [heq, List.filter_cons, hexternal]
          rfl

/-- The invariant of the first loop. -/
structure Unloading (s : Loaded ι) (root : ι) (G : ι → Prop) (l : UnloadLists ι) : Prop where
  unload : ∀ x ∈ l.unloadList, G x
  loc : ∀ x ∈ l.localUnloadList, G x
  nodup : l.localUnloadList.Nodup
  external : l.externalUnloadList =
    l.localUnloadList.flatMap fun x => (s.children x).filter (s.isExternal root)
  /-- What nothing needs any more will be gone through. -/
  ready : ∀ y, G y → y ∉ l.localUnloadList →
    (y = root ∨ ∀ p ∈ s.parents y, p ∈ l.localUnloadList) → y ∈ l.unloadList

theorem Unloads.start (h : Unloads s root G) : Unloading s root G ⟨[root], [], []⟩ where
  unload x hx := List.mem_singleton.mp hx ▸ h.root_mem
  loc := List.forall_mem_nil _
  nodup := .nil
  external := rfl
  ready y hy _ hcase := by
    rcases hcase with rfl | hall
    · exact .head _
    · by_cases hroot : y = root
      · exact hroot ▸ .head _
      · obtain ⟨p, hp⟩ := List.exists_mem_of_ne_nil _ (h.exists_parent y hy hroot)
        exact absurd (hall p hp) List.not_mem_nil

/-- What the loop still has to do. -/
def unloadPotential (s : Loaded ι) (l : UnloadLists ι) : Nat :=
  l.unloadList.length +
    ∑ x ∈ s.solist.toFinset \ l.localUnloadList.toFinset, (s.children x).length

theorem Unloads.unloadLocal_eq (h : Unloads s root G) {fuel : Nat} : ∀ {l : UnloadLists ι},
    Unloading s root G l → unloadPotential s l < fuel →
    ∃ l', unloadLocal root fuel l (s.without l.localUnloadList) =
        some (l', s.without l'.localUnloadList) ∧
      Unloading s root G l' ∧ l'.unloadList = [] := by
  induction fuel with
  | zero => intro l _ hfuel; exact absurd hfuel (Nat.not_lt_zero _)
  | succ fuel ih =>
    rintro ⟨unloadList, loc, ext⟩ hl hfuel
    match unloadList with
    | [] => exact ⟨_, rfl, hl, rfl⟩
    | si :: unloadList =>
      obtain ⟨hsi, hunload⟩ := List.forall_mem_cons.mp hl.unload
      rw [unloadLocal]
      by_cases hmem : si ∈ loc
      · simp only [if_pos hmem]
        refine ih (l := ⟨unloadList, loc, ext⟩) ⟨hunload, hl.loc, hl.nodup, hl.external, ?_⟩ ?_
        · intro y hy hnot hcase
          rcases List.mem_cons.mp (hl.ready y hy hnot hcase) with rfl | hy
          · exact absurd hmem hnot
          · exact hy
        · simp only [unloadPotential, List.length_cons] at hfuel ⊢
          omega
      · simp only [if_neg hmem]
        have hchildren : (s.without loc).children si = s.children si := if_neg hmem
        obtain ⟨put, hput, hlength, hready, heq⟩ := h.unloadChildren_eq hsi (L := loc)
          (s.children si) [] ⟨unloadList, loc ++ [si], ext⟩ rfl
          (List.forall_mem_append.mpr ⟨hl.loc, List.forall_mem_singleton.mpr hsi⟩)
        rw [withoutChildren_nil] at heq
        rw [hchildren, heq]
        simp only [h.without_concat]
        refine ih (l := ⟨unloadList ++ put, loc ++ [si], _⟩) ⟨?_, ?_, ?_, ?_, ?_⟩ ?_
        · exact List.forall_mem_append.mpr ⟨hunload, hput⟩
        · exact List.forall_mem_append.mpr ⟨hl.loc, List.forall_mem_singleton.mpr hsi⟩
        · rw [← List.concat_eq_append]
          exact hl.nodup.concat hmem
        · rw [List.flatMap_append, ← hl.external]
          simp
        · intro y hy hnot hcase
          rw [List.mem_append, not_or, List.mem_singleton] at hnot
          by_cases hold : y = root ∨ ∀ p ∈ s.parents y, p ∈ loc
          · rcases List.mem_cons.mp (hl.ready y hy hnot.1 hold) with heq | hy
            · exact absurd heq hnot.2
            · exact List.mem_append_left _ hy
          · rw [not_or] at hold
            have hall := hcase.resolve_left hold.1
            obtain ⟨p, hp, hpnot⟩ := by simpa using hold.2
            have hpsi : p = si := List.mem_singleton.mp
              ((List.mem_append.mp (hall p hp)).resolve_left hpnot)
            refine List.mem_append_right _ (hready y (hpsi ▸ (h.links p y).mp hp) hy ?_ hall)
            rw [List.mem_append, not_or, List.mem_singleton]
            exact hnot
        · have hsum := sum_sdiff_concat hmem (List.mem_toFinset.mpr (h.mem si hsi))
            fun x => (s.children x).length
          simp only [unloadPotential, List.length_cons, List.length_append] at hfuel ⊢
          omega

/-- All of the group is gone through: what is left of it would need something that needs it, and so
on. -/
theorem Unloads.mem_of_done (h : Unloads s root G) {l : UnloadLists ι} (hl : Unloading s root G l)
    (hdone : l.unloadList = []) {x : ι} (hx : G x) : x ∈ l.localUnloadList := by
  classical
  by_contra hnot
  obtain ⟨rank, hrank⟩ := h.acyclic
  let left := s.solist.toFinset.filter fun y => G y ∧ y ∉ l.localUnloadList
  have hleft (y : ι) : y ∈ left ↔ G y ∧ y ∉ l.localUnloadList := by
    simp only [left, Finset.mem_filter, List.mem_toFinset]
    exact ⟨fun hy => hy.2, fun hy => ⟨h.mem y hy.1, hy⟩⟩
  obtain ⟨y, hy, hmax⟩ := left.exists_max_image rank ⟨x, (hleft x).mpr ⟨hx, hnot⟩⟩
  obtain ⟨hG, hy⟩ := (hleft y).mp hy
  have hneeded : ¬∀ p ∈ s.parents y, p ∈ l.localUnloadList := by
    intro hall
    have hready := hl.ready y hG hy (.inr hall)
    rw [hdone] at hready
    exact List.not_mem_nil hready
  obtain ⟨p, hp, hpnot⟩ := by simpa using hneeded
  have hlt := hrank p y ((h.links p y).mp hp)
  exact Nat.not_le.mpr hlt (hmax p ((hleft p).mpr ⟨h.parent y hG p hp, hpnot⟩))

/-! ## The libraries that are left -/

/-- Without the libraries of `L`. -/
def unloaded (s : Loaded ι) (L : List ι) : Loaded ι :=
  { s.without L with solist := s.solist.filter (· ∉ L) }

/-- Without children and parents there are no links to be cleared. -/
theorem soinfoFree_eq {t : Loaded ι} {si : ι} (hmem : si ∈ t.solist) (hchildren : t.children si = [])
    (hparents : t.parents si = []) :
    t.soinfoFree si = some { t with solist := t.solist.erase si } := by
  rw [soinfoFree, if_pos hmem, removeAllLinks]
  have hc : Function.update t.children si [] = t.children := by
    rw [← hchildren, Function.update_eq_self]
  have hp : Function.update t.parents si [] = t.parents := by
    rw [← hparents, Function.update_eq_self]
  simp [hchildren, hparents, hc, hp]

theorem foldlM_soinfoFree : ∀ {L : List ι} {t : Loaded ι}, t.solist.Nodup → L.Nodup →
    (∀ x ∈ L, x ∈ t.solist ∧ t.children x = [] ∧ t.parents x = []) →
    L.foldlM soinfoFree t = some { t with solist := t.solist.filter (· ∉ L) } := by
  intro L
  induction L with
  | nil => intro t _ _ _; simp
  | cons x L ih =>
    intro t hnodup hL hfree
    obtain ⟨⟨hmem, hchildren, hparents⟩, hrest⟩ := List.forall_mem_cons.mp hfree
    obtain ⟨hx, hL⟩ := List.nodup_cons.mp hL
    rw [List.foldlM_cons, soinfoFree_eq hmem hchildren hparents, Option.bind_eq_bind,
      Option.bind_some, ih (hnodup.erase x) hL]
    · have hfilter : ((t.solist.erase x).filter (· ∉ L)) = t.solist.filter (· ∉ x :: L) := by
        rw [hnodup.erase_eq_filter, List.filter_filter]
        refine List.filter_congr fun y _ => ?_
        by_cases hy : y = x <;> simp [hy]
      rw [hfilter]
    · intro y hy
      have hne : y ≠ x := fun heq => hx (heq ▸ hy)
      exact ⟨(List.mem_erase_of_ne hne).mpr (hrest y hy).1, (hrest y hy).2⟩

/-- **A group is unloaded as a whole**, and what it refers to outside of it is left to be unloaded. -/
theorem Unloads.unloadGroup_eq (h : Unloads s root G) : ∃ L : List ι, L.Nodup ∧ (∀ x, x ∈ L ↔ G x) ∧
    s.unloadGroup root =
      some (L.flatMap fun x => (s.children x).filter (s.isExternal root), s.unloaded L) := by
  have hedges : unloadPotential s ⟨[root], [], []⟩ < s.edges + 2 := by
    have hsum : ∑ x ∈ s.solist.toFinset, (s.children x).length = s.edges :=
      List.sum_toFinset _ h.nodup
    simp only [unloadPotential, List.length_singleton, List.toFinset_nil, Finset.sdiff_empty, hsum]
    omega
  obtain ⟨l, hloop, hl, hdone⟩ := h.unloadLocal_eq h.start hedges
  rw [without_nil] at hloop
  have hmem (x : ι) : x ∈ l.localUnloadList ↔ G x := ⟨hl.loc x, h.mem_of_done hl hdone⟩
  refine ⟨l.localUnloadList, hl.nodup, hmem, ?_⟩
  rw [unloadGroup, hloop, Option.bind_eq_bind, Option.bind_some]
  have hfree : l.localUnloadList.foldlM soinfoFree (s.without l.localUnloadList) =
      some (s.unloaded l.localUnloadList) := by
    refine foldlM_soinfoFree h.nodup hl.nodup fun x hx => ⟨h.mem x (hl.loc x hx), if_pos hx, ?_⟩
    simp only [without, List.filter_eq_nil_iff]
    intro p hp
    simpa using (hmem p).mpr (h.parent x (hl.loc x hx) p hp)
  simp only [hfree, hl.external]
  rfl

end McpeLauncher.Linker.Loaded
