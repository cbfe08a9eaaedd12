import McpeLauncher.Linker.FindLibraries
import McpeLauncher.Linker.Unload

/-!
# Counted references

The invariant of the loaded libraries: each group is counted with the references into it, and a group
without references is there only because its flags keep it. A reference is one of `dlopen`, of a
library of another group, or one that `soinfo_unload` is still to give back.
-/

namespace McpeLauncher.Linker

variable {ι : Type} [DecidableEq ι]

/-- The libraries that there may be, and the files that may be found for a name. No library needs
itself. -/
structure Universe (ι : Type) extends Files ι where
  all : Finset ι
  Opens : Name → ι → Prop
  rank : ι → Nat
  mem_all : ∀ name si, soname si = some name ∨ Opens name si → si ∈ all
  rank_lt : ∀ si, ∀ name ∈ needed si, ∀ child, soname child = some name ∨ Opens name child →
    rank child < rank si

/-- The library is one for the name. -/
def Universe.Stands (U : Universe ι) (name : Name) (si : ι) : Prop :=
  U.soname si = some name ∨ U.Opens name si

/-- The files that a call finds are among those that there may be. -/
def Attempt.Fits (a : Attempt ι) (U : Universe ι) : Prop :=
  ∀ name si, a.openLibrary name = some si → U.Opens name si

namespace Loaded
open BreadthFirst

/-- The references into a group from libraries of other groups. -/
def outside (s : Loaded ι) (root : ι) : Nat :=
  ∑ x ∈ s.solist.toFinset with s.localGroupRoot x ≠ some root,
    (s.children x).countP (s.localGroupRoot · = some root)

structure Inv (U : Universe ι) (s : Loaded ι) (refs : List ι) : Prop where
  nodup : s.solist.Nodup
  mem_all : ∀ x ∈ s.solist, x ∈ U.all
  links : ∀ p y, p ∈ s.parents y ↔ y ∈ s.children p
  mem_of_link : ∀ p, ∀ y ∈ s.children p, p ∈ s.solist ∧ y ∈ s.solist
  needed : ∀ x ∈ s.solist, List.Forall₂ U.Stands (U.needed x) (s.children x)
  linked : ∀ x ∈ s.solist, s.isLinked x = true
  group : ∀ x ∈ s.solist, ∃ root ∈ s.solist, s.localGroupRoot x = some root ∧
    s.localGroupRoot root = some root
  parent : ∀ x ∈ s.solist, s.localGroupRoot x ≠ some x →
    ∃ p ∈ s.parents x, s.localGroupRoot p = s.localGroupRoot x
  mem_refs : ∀ x ∈ refs, x ∈ s.solist
  count : ∀ root ∈ s.solist, s.localGroupRoot root = some root →
    s.refCount root = refs.countP (s.localGroupRoot · = some root) + s.outside root
  alive : ∀ root ∈ s.solist, s.localGroupRoot root = some root → s.refCount root = 0 →
    s.keeps root = true
  /-- A group refers to groups that are older. -/
  older : ∃ born : ι → Nat, ∀ x, ∀ y ∈ s.children x, ∀ root root',
    s.localGroupRoot x = some root → s.localGroupRoot y = some root' → root ≠ root' →
    born root' < born root

namespace Inv

variable {U : Universe ι} {s : Loaded ι} {refs refs' : List ι} {x root : ι}

theorem perm (h : Inv U s refs) (hperm : refs.Perm refs') : Inv U s refs' :=
  { h with
    mem_refs := fun x hx => h.mem_refs x (hperm.mem_iff.mpr hx)
    count := fun root hroot hself => by rw [h.count root hroot hself, hperm.countP_eq] }

theorem exists_of_forall₂ {α β : Type} {R : α → β → Prop} {as : List α} {bs : List β}
    (h : List.Forall₂ R as bs) {b : β} (hb : b ∈ bs) : ∃ a ∈ as, R a b := by
  induction h with
  | nil => cases hb
  | cons hab _ ih =>
    rcases List.mem_cons.mp hb with rfl | hb
    · exact ⟨_, .head _, hab⟩
    · obtain ⟨a, ha, hR⟩ := ih hb
      exact ⟨a, .tail _ ha, hR⟩

theorem rank_lt (h : Inv U s refs) {y : ι} (hy : y ∈ s.children x) : U.rank y < U.rank x := by
  obtain ⟨name, hname, hstands⟩ := exists_of_forall₂ (h.needed x (h.mem_of_link x y hy).1) hy
  exact U.rank_lt x name hname y hstands

/-- What is counted for the last time. -/
theorem no_others (h : Inv U s (x :: refs)) (hx : s.localGroupRoot x = some root)
    (hroot : root ∈ s.solist) (hself : s.localGroupRoot root = some root)
    (hlast : s.refCount root = 1) :
    (∀ y ∈ refs, s.localGroupRoot y ≠ some root) ∧ s.outside root = 0 := by
  have hcount := h.count root hroot hself
  rw [hlast, List.countP_cons_of_pos (by simpa using hx)] at hcount
  have hrefs : refs.countP (s.localGroupRoot · = some root) = 0 := by omega
  refine ⟨fun y hy => ?_, by omega⟩
  simpa using List.countP_eq_zero.mp hrefs y hy

/-- No library refers to a group from outside. -/
theorem parent_of_outside (h : Inv U s refs) (houtside : s.outside root = 0) {p y : ι}
    (hy : y ∈ s.children p) (hgroup : s.localGroupRoot y = some root) :
    s.localGroupRoot p = some root := by
  by_contra hnot
  have hmem : p ∈ s.solist.toFinset.filter (s.localGroupRoot · ≠ some root) := by
    simpa using ⟨(h.mem_of_link p y hy).1, hnot⟩
  have hzero := (Finset.sum_eq_zero_iff.mp houtside) p hmem
  simpa [hgroup] using List.countP_eq_zero.mp hzero y hy

/-- The state with one reference less. -/
theorem decrement (h : Inv U s (x :: refs)) (hx : s.localGroupRoot x = some root)
    (hkeep : s.refCount root = 1 → s.keeps root = true) :
    Inv U { s with refCount := Function.update s.refCount root (s.refCount root - 1) } refs :=
  { h with
    mem_refs := fun y hy => h.mem_refs y (.tail _ hy)
    count := fun root' hroot' hself => by
      have hcount := h.count root' hroot' hself
      by_cases heq : root' = root
      · subst heq
        rw [List.countP_cons_of_pos (by simpa using hx)] at hcount
        simp only [Function.update_self]
        exact (congrArg (· - 1) hcount).trans (by rw [Nat.add_right_comm]; rfl)
      · have hnot : ¬s.localGroupRoot x = some root' := by
          rw [hx]
          exact fun h => heq (Option.some.inj h).symm
        rw [List.countP_cons_of_neg (by simpa using hnot)] at hcount
        simp only [Function.update_of_ne heq]
        exact hcount
    alive := fun root' hroot' hself hzero => by
      by_cases heq : root' = root
      · subst heq
        simp only [Function.update_self] at hzero
        have hcount := h.count root' hroot' hself
        rw [List.countP_cons_of_pos (by simpa using hx)] at hcount
        exact hkeep (by omega)
      · simp only [Function.update_of_ne heq] at hzero
        exact h.alive root' hroot' hself hzero }

/-- **A group without references can be unloaded.** -/
theorem unloads (h : Inv U s refs) (hroot : root ∈ s.solist)
    (hself : s.localGroupRoot root = some root) (houtside : s.outside root = 0)
    (refCount : ι → Nat) : Unloads { s with refCount } root fun y =>
      y ∈ s.solist ∧ s.localGroupRoot y = some root where
  nodup := h.nodup
  mem _ hy := hy.1
  root_mem := ⟨hroot, hself⟩
  links := h.links
  parent y hy p hp := by
    have hlink := (h.links p y).mp hp
    exact ⟨(h.mem_of_link p y hlink).1, h.parent_of_outside houtside hlink hy.2⟩
  exists_parent y hy hne := by
    obtain ⟨p, hp, -⟩ := h.parent y hy.1 (by rw [hy.2]; exact fun heq => hne (Option.some.inj heq).symm)
    exact List.ne_nil_of_mem hp
  inner z hz y hy := by
    have hmem := (h.mem_of_link z y hy).2
    simp [isExternal, h.linked y hmem, hmem]
  acyclic := ⟨U.rank, fun _ _ hy => h.rank_lt hy⟩

section
variable {L : List ι} {refCount : ι → Nat}

/-- What a library refers to outside of its group. -/
def external (s : Loaded ι) (root : ι) (L : List ι) : List ι :=
  L.flatMap fun x => (s.children x).filter (s.isExternal root)

/-- The references from outside are those from what is unloaded and those from what is left. -/
theorem outside_unloaded (h : Inv U s refs) (hL : L.Nodup)
    (hmem : ∀ y, y ∈ L ↔ y ∈ s.solist ∧ s.localGroupRoot y = some root) {root' : ι}
    (hne : root' ≠ root) :
    s.outside root' = (external s root L).countP (s.localGroupRoot · = some root') +
      (s.unloaded L).outside root' := by
  have hexternal : (external s root L).countP (s.localGroupRoot · = some root') =
      ∑ y ∈ L.toFinset, (s.children y).countP (s.localGroupRoot · = some root') := by
    rw [external, List.countP_flatMap, List.sum_toFinset _ hL]
    refine congrArg List.sum (List.map_congr_left fun y hy => ?_)
    rw [Function.comp_apply, List.countP_filter]
    refine List.countP_congr fun z hz => ?_
    have hlinked := h.linked z (h.mem_of_link y z hz).2
    have hnot : s.localGroupRoot z = some root' → s.localGroupRoot z ≠ some root := by
      rintro hz' hz
      exact hne (Option.some.inj (hz'.symm.trans hz))
    simp [isExternal, hlinked]
    exact hnot
  have hsub : L.toFinset ⊆ s.solist.toFinset.filter (s.localGroupRoot · ≠ some root') := by
    intro y hy
    obtain ⟨hsolist, hgroup⟩ := (hmem y).mp (List.mem_toFinset.mp hy)
    simpa [hgroup, hsolist] using fun h : root = root' => hne h.symm
  rw [hexternal, outside, ← Finset.sum_sdiff hsub, Nat.add_comm]
  refine congrArg _ ?_
  have hset : (s.solist.toFinset.filter (s.localGroupRoot · ≠ some root')) \ L.toFinset =
      (s.solist.filter (· ∉ L)).toFinset.filter (s.localGroupRoot · ≠ some root') := by
    ext y
    simp only [Finset.mem_sdiff, Finset.mem_filter, List.mem_toFinset, List.mem_filter,
      decide_eq_true_eq]
    tauto
  rw [hset]
  refine Finset.sum_congr rfl fun y hy => ?_
  have hleft : y ∈ s.solist.filter (· ∉ L) := List.mem_toFinset.mp (Finset.mem_filter.mp hy).1
  have hchildren : (s.unloaded L).children y = s.children y :=
    if_neg (of_decide_eq_true (List.mem_filter.mp hleft).2)
  rw [hchildren]
  rfl

/-- **The invariant behind the unloading of a group**: its references to other groups are still to be
given back. -/
theorem unloaded (h : Inv U s refs) (hrefs : ∀ y ∈ refs', y ∈ refs ∧ s.localGroupRoot y ≠ some root)
    (hcount : ∀ root', root' ≠ root → refs.countP (s.localGroupRoot · = some root') =
      refs'.countP (s.localGroupRoot · = some root'))
    (houtside : s.outside root = 0) (hL : L.Nodup)
    (hmem : ∀ y, y ∈ L ↔ y ∈ s.solist ∧ s.localGroupRoot y = some root)
    (hrefCount : ∀ y, y ≠ root → refCount y = s.refCount y) :
    Inv U ({ s with refCount }.unloaded L) (external s root L ++ refs') := by
  have hsolist {y : ι} : y ∈ ({ s with refCount }.unloaded L).solist ↔ y ∈ s.solist ∧ y ∉ L := by
    simp [Loaded.unloaded]
  have hout {y : ι} (hy : y ∈ s.solist) : y ∉ L ↔ s.localGroupRoot y ≠ some root := by
    rw [hmem, not_and]
    exact ⟨fun hnot => hnot hy, fun hnot _ => hnot⟩
  have hlink {p y : ι} : y ∈ ({ s with refCount }.unloaded L).children p ↔
      p ∉ L ∧ y ∈ s.children p := by
    by_cases hp : p ∈ L <;> simp [Loaded.unloaded, without, hp]
  -- a library that is left does not need anything that is unloaded
  have hkept {p y : ι} (hp : p ∉ L) (hy : y ∈ s.children p) : y ∉ L := fun hy' =>
    hp ((hmem p).mpr ⟨(h.mem_of_link p y hy).1, h.parent_of_outside houtside hy ((hmem y).mp hy').2⟩)
  have hne {y root' : ι} (hy : y ∈ s.solist ∧ y ∉ L) (hgroup : s.localGroupRoot y = some root') :
      root' ≠ root := by
    rintro rfl
    exact (hout hy.1).mp hy.2 hgroup
  refine ⟨h.nodup.filter _, fun y hy => h.mem_all y (hsolist.mp hy).1, fun p y => ?_,
    fun p y hy => ?_, fun y hy => ?_, fun y hy => h.linked y (hsolist.mp hy).1, fun y hy => ?_,
    fun y hy hroot => ?_, ?_, fun root' hy hself => ?_, fun root' hy hself hzero => ?_, ?_⟩
  · rw [hlink, ← h.links p y]
    simp [Loaded.unloaded, without, and_comm]
  · obtain ⟨hp, hy⟩ := hlink.mp hy
    obtain ⟨hpmem, hymem⟩ := h.mem_of_link p y hy
    exact ⟨hsolist.mpr ⟨hpmem, hp⟩, hsolist.mpr ⟨hymem, hkept hp hy⟩⟩
  · obtain ⟨hy, hnot⟩ := hsolist.mp hy
    have hchildren : (Loaded.unloaded { s with refCount } L).children y = s.children y :=
      if_neg hnot
    rw [hchildren]
    exact h.needed y hy
  · have hy := hsolist.mp hy
    obtain ⟨root', hroot', hgroup, hself⟩ := h.group y hy.1
    refine ⟨root', hsolist.mpr ⟨hroot', (hout hroot').mpr ?_⟩, hgroup, hself⟩
    rw [hself]
    exact fun heq => hne hy hgroup (Option.some.inj heq)
  · have hy := hsolist.mp hy
    obtain ⟨p, hp, hgroup⟩ := h.parent y hy.1 hroot
    have hpmem := (h.mem_of_link p y ((h.links p y).mp hp)).1
    have hpnot : p ∉ L := (hout hpmem).mpr (hgroup ▸ (hout hy.1).mp hy.2)
    exact ⟨p, by simpa [Loaded.unloaded, without] using ⟨hp, hpnot⟩, hgroup⟩
  · intro y hy
    rcases List.mem_append.mp hy with hy | hy
    · obtain ⟨z, hz, hy⟩ := List.mem_flatMap.mp hy
      obtain ⟨hy, hexternal⟩ := List.mem_filter.mp hy
      have hymem := (h.mem_of_link z y hy).2
      refine hsolist.mpr ⟨hymem, (hout hymem).mpr ?_⟩
      simpa [isExternal, h.linked y hymem] using hexternal
    · obtain ⟨hy, hnot⟩ := hrefs y hy
      exact hsolist.mpr ⟨h.mem_refs y hy, (hout (h.mem_refs y hy)).mpr hnot⟩
  · have hy := hsolist.mp hy
    have hne := hne hy hself
    calc refCount root' = s.refCount root' := hrefCount root' hne
      _ = refs.countP (s.localGroupRoot · = some root') + s.outside root' :=
        h.count root' hy.1 hself
      _ = refs'.countP (s.localGroupRoot · = some root') +
          ((external s root L).countP (s.localGroupRoot · = some root') +
            (s.unloaded L).outside root') := by
        rw [hcount root' hne, h.outside_unloaded hL hmem hne]
      _ = (external s root L ++ refs').countP (s.localGroupRoot · = some root') +
          (s.unloaded L).outside root' := by
        rw [List.countP_append]
        omega
  · have hy := hsolist.mp hy
    exact h.alive root' hy.1 hself ((hrefCount root' (hne hy hself)).symm.trans hzero)
  · obtain ⟨born, hborn⟩ := h.older
    exact ⟨born, fun z y hy => hborn z y (hlink.mp hy).2⟩

end

theorem dropReference_eq (h : Inv U s (x :: refs)) (hgroup : s.localGroupRoot x = some root)
    (hroot : root ∈ s.solist) (hself : s.localGroupRoot root = some root) :
    0 < s.refCount root ∧ s.dropReference x = some (root, decide (s.refCount root = 1),
      { s with refCount := Function.update s.refCount root (s.refCount root - 1) }) := by
  have hcount := h.count root hroot hself
  rw [List.countP_cons_of_pos (by simpa using hgroup)] at hcount
  have hpos : 0 < s.refCount root := by omega
  have hlast : s.refCount root - 1 = 0 ↔ s.refCount root = 1 := by omega
  refine ⟨hpos, ?_⟩
  simp [dropReference, h.linked x (h.mem_refs x (.head _)), hgroup, decrementRefCount, decremented,
    Nat.pos_iff_ne_zero.mp hpos, hlast]

/-- Several references are given back, one after the other. -/
theorem foldlM_soinfoUnload {fuel : Nat}
    (ih : ∀ {s : Loaded ι} {x : ι} {refs : List ι}, Inv U s (x :: refs) → s.solist.length < fuel →
      ∃ s', s.soinfoUnload fuel x = some s' ∧ Inv U s' refs ∧ s'.solist.Sublist s.solist) :
    ∀ {external : List ι} {s : Loaded ι}, Inv U s (external ++ refs) → s.solist.length < fuel →
      ∃ s', external.foldlM (soinfoUnload fuel) s = some s' ∧ Inv U s' refs ∧
        s'.solist.Sublist s.solist := by
  intro external
  induction external with
  | nil => exact fun {s} h _ => ⟨s, rfl, h, .refl _⟩
  | cons x external ihext =>
    intro s h hfuel
    obtain ⟨s₁, hs₁, h₁, hsub₁⟩ := ih h hfuel
    obtain ⟨s₂, hs₂, h₂, hsub₂⟩ := ihext h₁ (hsub₁.length_le.trans_lt hfuel)
    refine ⟨s₂, ?_, h₂, hsub₂.trans hsub₁⟩
    rw [List.foldlM_cons, hs₁]
    exact hs₂

/-- **Giving back a reference** keeps the invariant. -/
theorem soinfoUnload {fuel : Nat} : ∀ {s : Loaded ι} {x : ι} {refs : List ι},
    Inv U s (x :: refs) → s.solist.length < fuel →
    ∃ s', s.soinfoUnload fuel x = some s' ∧ Inv U s' refs ∧ s'.solist.Sublist s.solist := by
  induction fuel with
  | zero => intro s x refs _ hfuel; exact absurd hfuel (Nat.not_lt_zero _)
  | succ fuel ih =>
    intro s x refs h hfuel
    obtain ⟨root, hroot, hgroup, hself⟩ := h.group x (h.mem_refs x (.head _))
    obtain ⟨hpos, hdrop⟩ := h.dropReference_eq hgroup hroot hself
    rw [Loaded.soinfoUnload, hdrop]
    simp only [Option.bind_eq_bind, Option.bind_some]
    have hlinked : s.isLinked root = true := h.linked root hroot
    by_cases hreturn : s.refCount root = 1 → s.keeps root = true
    · refine ⟨_, if_pos ?_, h.decrement hgroup hreturn, .refl _⟩
      by_cases hlast : s.refCount root = 1
      · simp [canUnload, hlinked, hreturn hlast]
      · simp [hlast]
    · obtain ⟨hlast, hkeeps⟩ := Classical.not_imp.mp hreturn
      obtain ⟨hrefs, houtside⟩ := h.no_others hgroup hroot hself hlast
      obtain ⟨L, hL, hmem, hunload⟩ := (h.unloads hroot hself houtside
        (Function.update s.refCount root (s.refCount root - 1))).unloadGroup_eq
      have hcount (root' : ι) (hne : root' ≠ root) :
          (x :: refs).countP (s.localGroupRoot · = some root') =
            refs.countP (s.localGroupRoot · = some root') := by
        have hnot : ¬s.localGroupRoot x = some root' := by
          rw [hgroup]
          exact fun heq => hne (Option.some.inj heq).symm
        exact List.countP_cons_of_neg (by simpa using hnot)
      have hrefCount (y : ι) (hy : y ≠ root) :
          Function.update s.refCount root (s.refCount root - 1) y = s.refCount y :=
        Function.update_of_ne hy _ _
      have hinv := h.unloaded (fun y hy => ⟨.tail _ hy, hrefs y hy⟩) hcount houtside hL hmem
        hrefCount
      have hshorter : (s.unloaded L).solist.length < s.solist.length := by
        have hle : (s.unloaded L).solist.Sublist (s.solist.erase root) := by
          rw [h.nodup.erase_eq_filter]
          refine List.monotone_filter_right _ fun y hy => ?_
          have hy : y ∉ L := by simpa using hy
          simpa using fun heq : y = root => hy (heq ▸ (hmem root).mpr ⟨hroot, hself⟩)
        have hlength := List.length_erase_of_mem hroot
        have := hle.length_le
        have := List.length_pos_of_mem hroot
        omega
      obtain ⟨s', hs', hinv', hsub⟩ := foldlM_soinfoUnload ih hinv
        (Nat.lt_of_lt_of_le hshorter (Nat.le_of_lt_succ hfuel))
      refine ⟨s', ?_, hinv', hsub.trans List.filter_sublist⟩
      rw [if_neg (by simp [hlast, canUnload, hlinked, hkeeps]), hunload]
      exact (if_pos hlinked).trans hs'

end Inv
end Loaded
end McpeLauncher.Linker
