import McpeLauncher.Linker.Expanding
import Mathlib.Algebra.BigOperators.Group.Finset.Piecewise

/-!
# Linking a group

What `find_libraries` has added is linked as one group, and the references between groups are counted;
or it is unloaded again, and nothing has changed.
-/

namespace McpeLauncher.Linker
open BreadthFirst

variable {ι : Type} [DecidableEq ι] {U : Universe ι} {a : Attempt ι}

namespace Loaded

variable {s₀ s : Loaded ι} {root : ι} {new : List ι} {done : List (ι × Option ι)} {refs : List ι}

/-! ## The local group -/

theorem walk_eq {children : ι → List ι} {V : Finset ι} {fuel : Nat} : ∀ {w : State ι},
    w.Within children V → w.potential children V < fuel → w.skipped = [] →
    ∃ t, Steps children w t ∧ t.queue = [] ∧ t.skipped = [] ∧
      walkDependenciesTree children
        (fun si localGroup => some (.kWalkContinue, localGroup ++ [si])) fuel
        (w.queue.map Prod.fst) w.order w.order = some (true, t.order, t.order) := by
  induction fuel with
  | zero => intro w _ hfuel; exact absurd hfuel (Nat.not_lt_zero _)
  | succ fuel ih =>
    rintro ⟨queue, vis, sk⟩ hwithin hfuel hskipped
    match queue with
    | [] => exact ⟨_, .refl, rfl, hskipped, rfl⟩
    | (si, k) :: q =>
      by_cases hmem : si ∈ vis.map Prod.fst
      · have hstep : Step children ⟨(si, k) :: q, vis, sk⟩ ⟨q, vis, sk⟩ := .again hmem
        obtain ⟨t, hsteps, hend, hsk, hwalk⟩ := ih (hstep.within hwithin)
          (Nat.lt_of_lt_of_le (hstep.potential_lt hwithin) (Nat.le_of_lt_succ hfuel)) hskipped
        exact ⟨t, .head hstep hsteps, hend, hsk, (walkDependenciesTree_visited hmem).trans hwalk⟩
      · have hstep : Step children ⟨(si, k) :: q, vis, sk⟩
          ⟨q ++ (children si).map (·, k + 1), vis ++ [(si, k)], sk⟩ := .visit hmem
        obtain ⟨t, hsteps, hend, hsk, hwalk⟩ := ih (hstep.within hwithin)
          (Nat.lt_of_lt_of_le (hstep.potential_lt hwithin) (Nat.le_of_lt_succ hfuel)) hskipped
        rw [map_fst_queue, State.order_concat] at hwalk
        exact ⟨t, .head hstep hsteps, hend, hsk,
          (walkDependenciesTree_continue hmem rfl).trans hwalk⟩

/-- The local group is everything that the root needs, the nearest first. -/
theorem localGroup_eq {V : Finset ι} (hroot : root ∈ V)
    (hclosed : ∀ si ∈ V, ∀ child ∈ s.children si, child ∈ V) {fuel : Nat}
    (hfuel : 1 + ∑ si ∈ V, (s.children si).length < fuel) :
    ∃ order, s.localGroup fuel root = some order ∧
      Order s.children (fun _ => True) root order := by
  have hwithin : (State.start root).Within s.children V :=
    ⟨fun x hx => List.mem_singleton.mp hx ▸ hroot, hclosed⟩
  obtain ⟨t, hsteps, hend, hskipped, hwalk⟩ := walk_eq hwithin (by rwa [potential_start]) rfl
  refine ⟨t.order, congrArg (Option.map _) hwalk, ?_⟩
  refine (((Inv.start root).steps hsteps).order hend).congr fun si _ => ?_
  simp [hskipped]

theorem linkGroup_eq (a : Attempt ι) (r : Option ι) (group : List ι) (s : Loaded ι) :
    ∃ localGroupRoot, linkGroup a r group s =
        (group.all (fun si => s.isLinked si || a.links si), { s with localGroupRoot }) ∧
      (∀ x, s.isLinked x = true → localGroupRoot x = s.localGroupRoot x) ∧
      (∀ x, localGroupRoot x = s.localGroupRoot x ∨ localGroupRoot x = r) ∧
      (group.all (fun si => s.isLinked si || a.links si) = true → ∀ x ∈ group,
        s.isLinked x = false → localGroupRoot x = r) := by
  induction group generalizing s with
  | nil => exact ⟨s.localGroupRoot, rfl, fun _ _ => rfl, fun _ => .inl rfl, fun _ => List.forall_mem_nil _⟩
  | cons si group ih =>
    rw [linkGroup, List.all_cons]
    cases hlinked : s.isLinked si with
    | true =>
      obtain ⟨f, heq, hold, hcase, hnew⟩ := ih s
      refine ⟨f, heq, hold, hcase, fun hall x hx hx' => ?_⟩
      rcases List.mem_cons.mp hx with rfl | hx
      · rw [hlinked] at hx'
        cases hx'
      · exact hnew hall x hx hx'
    | false =>
      obtain ⟨f, heq, hold, hcase, hnew⟩ := ih { s with
        localGroupRoot := Function.update s.localGroupRoot si r }
      have hupdate (x : ι) : Function.update s.localGroupRoot si r x = s.localGroupRoot x ∨
          Function.update s.localGroupRoot si r x = r := by
        by_cases hx : x = si
        · exact .inr (hx ▸ Function.update_self ..)
        · exact .inl (Function.update_of_ne hx ..)
      cases hlinks : a.links si with
      | true =>
        refine ⟨f, heq, fun x hx => ?_, fun x => ?_, fun hall x hx hx' => ?_⟩
        · have hne : x ≠ si := fun heq => by rw [heq, hlinked] at hx; cases hx
          exact (hold x hx).trans (Function.update_of_ne hne ..)
        · rcases hcase x with heq | heq
          · exact (hupdate x).imp heq.trans heq.trans
          · exact .inr heq
        · rcases List.mem_cons.mp hx with rfl | hx
          · rcases hcase x with heq | heq
            · exact heq.trans (Function.update_self ..)
            · exact heq
          · exact hnew hall x hx hx'
      | false =>
        refine ⟨Function.update s.localGroupRoot si r, rfl, fun x hx => ?_, hupdate,
          fun hall => Bool.noConfusion hall⟩
        exact Function.update_of_ne (fun heq => by rw [heq, hlinked] at hx; cases hx) ..

theorem foldl_setLinked (tasks : List (ι × Option ι)) (s : Loaded ι) :
    tasks.foldl (fun s t => s.setLinked t.1) s =
      { s with isLinked := fun x => s.isLinked x || x ∈ tasks.map Prod.fst } := by
  induction tasks generalizing s with
  | nil => simp
  | cons t tasks ih =>
    rw [List.foldl_cons, ih]
    have hlinked : (fun x => (s.setLinked t.1).isLinked x || x ∈ tasks.map Prod.fst) =
        fun x => s.isLinked x || x ∈ (t :: tasks).map Prod.fst := by
      funext x
      by_cases hx : x = t.1 <;> simp only [setLinked, Function.update_apply, List.map_cons,
        List.mem_cons, hx] <;> simp
    rw [hlinked]
    rfl

/-- A task is counted as a reference into a group. -/
def countsFor (s : Loaded ι) (root : ι) (task : ι × Option ι) : Bool :=
  match task.2 with
  | none => false
  | some neededBy =>
    s.localGroupRoot neededBy ≠ s.localGroupRoot task.1 && s.localGroupRoot task.1 = some root

theorem foldlM_countTask : ∀ {tasks : List (ι × Option ι)} {s : Loaded ι},
    (∀ t ∈ tasks, (s.localGroupRoot t.1).isSome) →
    tasks.foldlM countTask s =
      some { s with refCount := fun root => s.refCount root + tasks.countP (s.countsFor root) } := by
  intro tasks
  induction tasks with
  | nil => intro s _; rfl
  | cons t tasks ih =>
    intro s hsome
    obtain ⟨ht, hrest⟩ := List.forall_mem_cons.mp hsome
    obtain ⟨root, hroot⟩ := Option.isSome_iff_exists.mp ht
    have hstep : countTask s t = some { s with
        refCount := fun r => s.refCount r + (if s.countsFor r t then 1 else 0) } := by
      obtain ⟨si, neededBy⟩ := t
      cases neededBy with
      | none => simp [countTask, countsFor]
      | some neededBy =>
        have hroot : s.localGroupRoot si = some root := hroot
        rw [countTask]
        split
        · next hne =>
          rw [incrementRefCount, hroot]
          simp only [Option.bind_eq_bind, Option.bind_some, Option.pure_def, Option.some.injEq]
          congr 1
          funext r
          have hne : s.localGroupRoot neededBy ≠ some root := hroot ▸ hne
          by_cases hr : r = root
          · subst hr
            simp [countsFor, hroot, hne]
          · have hr' : ¬root = r := fun heq => hr heq.symm
            simp [countsFor, hroot, hr, hr']
        · next heq =>
          have heq : s.localGroupRoot neededBy = s.localGroupRoot si := not_not.mp heq
          simp [countsFor, heq]
    rw [List.foldlM_cons, hstep, Option.bind_eq_bind, Option.bind_some, ih (s := { s with
      refCount := fun r => s.refCount r + (if s.countsFor r t then 1 else 0) }) hrest]
    simp only [Option.some.injEq]
    congr 1
    funext r
    have hcounts : (countsFor { s with
        refCount := fun r => s.refCount r + (if s.countsFor r t then 1 else 0) } r) =
        s.countsFor r := rfl
    rw [hcounts, List.countP_cons]
    omega

/-! ## A failed call -/

/-- The libraries are the same, but for the order in their lists of parents. -/
structure Same (s s₀ : Loaded ι) : Prop where
  solist : s.solist = s₀.solist
  children : s.children = s₀.children
  links : ∀ p y, p ∈ s.parents y ↔ y ∈ s.children p
  isLinked : ∀ x ∈ s₀.solist, s.isLinked x = s₀.isLinked x
  localGroupRoot : ∀ x ∈ s₀.solist, s.localGroupRoot x = s₀.localGroupRoot x
  refCount : ∀ x ∈ s₀.solist, s.refCount x = s₀.refCount x
  keeps : ∀ x ∈ s₀.solist, s.keeps x = s₀.keeps x

theorem Same.outside (h : Same s s₀) (hlink : ∀ p, ∀ y ∈ s₀.children p, p ∈ s₀.solist ∧ y ∈ s₀.solist)
    (root : ι) : s.outside root = s₀.outside root := by
  have hfilter : s.solist.toFinset.filter (s.localGroupRoot · ≠ some root) =
      s₀.solist.toFinset.filter (s₀.localGroupRoot · ≠ some root) := by
    rw [h.solist]
    exact Finset.filter_congr fun x hx => by rw [h.localGroupRoot x (List.mem_toFinset.mp hx)]
  rw [Loaded.outside, Loaded.outside, hfilter, h.children]
  refine Finset.sum_congr rfl fun x _ => List.countP_congr fun y hy => ?_
  rw [h.localGroupRoot y (hlink x y hy).2]

theorem Inv.congr (h : Inv U s₀ refs) (hsame : Same s s₀) : Inv U s refs where
  nodup := hsame.solist ▸ h.nodup
  mem_all := hsame.solist ▸ h.mem_all
  links := hsame.links
  mem_of_link := hsame.solist ▸ hsame.children ▸ h.mem_of_link
  needed := hsame.solist ▸ hsame.children ▸ h.needed
  linked x hx := by
    rw [hsame.solist] at hx
    exact (hsame.isLinked x hx).trans (h.linked x hx)
  group x hx := by
    rw [hsame.solist] at hx ⊢
    obtain ⟨root, hroot, hgroup, hself⟩ := h.group x hx
    exact ⟨root, hroot, (hsame.localGroupRoot x hx).trans hgroup,
      (hsame.localGroupRoot root hroot).trans hself⟩
  parent x hx hne := by
    rw [hsame.solist] at hx
    rw [hsame.localGroupRoot x hx] at hne ⊢
    obtain ⟨p, hp, hgroup⟩ := h.parent x hx hne
    have hlink := (h.links p x).mp hp
    refine ⟨p, (hsame.links p x).mpr (hsame.children ▸ hlink), ?_⟩
    exact (hsame.localGroupRoot p (h.mem_of_link p x hlink).1).trans hgroup
  mem_refs := hsame.solist ▸ h.mem_refs
  count root hroot hself := by
    rw [hsame.solist] at hroot
    rw [hsame.localGroupRoot root hroot] at hself
    rw [hsame.refCount root hroot, hsame.outside h.mem_of_link, h.count root hroot hself]
    congr 1
    refine List.countP_congr fun x hx => ?_
    rw [hsame.localGroupRoot x (h.mem_refs x hx)]
  alive root hroot hself hzero := by
    rw [hsame.solist] at hroot
    rw [hsame.localGroupRoot root hroot] at hself
    rw [hsame.refCount root hroot] at hzero
    exact (hsame.keeps root hroot).trans (h.alive root hroot hself hzero)
  older := by
    obtain ⟨born, hborn⟩ := h.older
    refine ⟨born, fun x y hy root root' hx hy' => ?_⟩
    rw [hsame.children] at hy
    obtain ⟨hxmem, hymem⟩ := h.mem_of_link x y hy
    rw [hsame.localGroupRoot x hxmem] at hx
    rw [hsame.localGroupRoot y hymem] at hy'
    exact hborn x y hy root root' hx hy'

section
variable {tasks : List (LoadTask ι)}

/-- Whether they have been given a root makes no difference to libraries that are not linked. -/
theorem Expanding.withRoots (h : Expanding U s₀ new tasks done s) {localGroupRoot : ι → Option ι}
    (hroot : ∀ x ∈ s₀.solist, localGroupRoot x = s.localGroupRoot x) :
    Expanding U s₀ new tasks done { s with localGroupRoot } :=
  { h with localGroupRoot_old := fun x hx => (hroot x hx).trans (h.localGroupRoot_old x hx) }

theorem Expanding.rank_lt (h : Expanding U s₀ new tasks done s) (h₀ : Inv U s₀ refs) {x y : ι}
    (hy : y ∈ s.children x) : U.rank y < U.rank x := by
  by_cases hx : x ∈ new
  · obtain ⟨names, hnames, hneeded⟩ := h.needed x hx
    obtain ⟨name, hname, hstands⟩ := Inv.exists_of_forall₂ hnames hy
    exact U.rank_lt x name (hneeded ▸ List.mem_append_left _ hname) y hstands
  · rw [h.children_old x hx] at hy
    exact h₀.rank_lt hy

/-- A library that was there does not need a new one. -/
theorem Expanding.mem_new_of_link (h : Expanding U s₀ new tasks done s) (h₀ : Inv U s₀ refs) {x y : ι}
    (hy : y ∈ s.children x) (hnew : y ∈ new) : x ∈ new := by
  by_contra hx
  rw [h.children_old x hx] at hy
  exact h.not_mem_new (h₀.mem_of_link x y hy).2 hnew

/-- What has been added can be unloaded. -/
theorem Expanding.unloads (h : Expanding U s₀ new tasks done s) (h₀ : Inv U s₀ refs)
    (hneeded : Needed root new done) (hroot : root ∈ new) : Unloads s root (· ∈ new) where
  nodup := h.nodup
  mem x hx := h.solist ▸ List.mem_append_right _ hx
  root_mem := hroot
  links := h.links
  parent y hy p hp := h.mem_new_of_link h₀ ((h.links p y).mp hp) hy
  exists_parent y hy hne := by
    obtain ⟨z, hz, hmem⟩ := hneeded y hy hne
    refine List.ne_nil_of_mem (a := z) ((h.links z y).mpr ?_)
    rw [h.children_new z hz]
    exact List.mem_map_of_mem (List.mem_filter.mpr ⟨hmem, by simp⟩)
  inner x hx y hy := by
    have hymem := (h.mem_of_link x y hy).2
    rw [h.solist, List.mem_append] at hymem
    by_cases hnew : y ∈ new
    · simp [isExternal, h.isLinked_new y hnew, hnew]
    · have hold := hymem.resolve_right hnew
      obtain ⟨root', hroot', hgroup, -⟩ := h₀.group y hold
      have hne : root' ≠ root := fun heq => h.not_mem_new hroot' (heq ▸ hroot)
      simp [isExternal, h.isLinked_old y hold, h₀.linked y hold, h.localGroupRoot_old y hold, hgroup,
        hne, hnew]
  acyclic := ⟨U.rank, fun _ _ hy => h.rank_lt h₀ hy⟩

/-- **What has been added is unloaded again** if the call fails. -/
theorem Expanding.soinfoUnload (h : Expanding U s₀ new tasks done s) (h₀ : Inv U s₀ refs)
    (hneeded : Needed root new done) (hroot : root ∈ new) (fuel : Nat) :
    ∃ s', s.soinfoUnload (fuel + 1) root = some s' ∧ Same s' s₀ := by
  obtain ⟨L, hL, hmem, hunload⟩ := (h.unloads h₀ hneeded hroot).unloadGroup_eq
  have hlinked := h.isLinked_new root hroot
  refine ⟨s.unloaded L, ?_, ?_⟩
  · rw [Loaded.soinfoUnload, dropReference, hlinked]
    simp [canUnload, hlinked, hunload]
  have hchildren : (s.unloaded L).children = s₀.children := by
    funext x
    by_cases hx : x ∈ L
    · have hnot : x ∉ s₀.solist := fun hold => h.not_mem_new hold ((hmem x).mp hx)
      refine (if_pos hx).trans (List.eq_nil_iff_forall_not_mem.mpr fun y hy => ?_).symm
      exact hnot (h₀.mem_of_link x y hy).1
    · exact (if_neg hx).trans (h.children_old x fun hnew => hx ((hmem x).mpr hnew))
  refine ⟨?_, hchildren, fun p y => ?_, h.isLinked_old, h.localGroupRoot_old, h.refCount_old,
    h.keeps_old⟩
  · have hold : s₀.solist.filter (· ∉ L) = s₀.solist := by
      refine List.filter_eq_self.mpr fun x hx => ?_
      simpa [hmem] using h.not_mem_new hx
    have hnew : new.filter (· ∉ L) = [] := by
      refine List.filter_eq_nil_iff.mpr fun x hx => ?_
      simpa [hmem] using hx
    rw [unloaded, h.solist, List.filter_append, hold, hnew, List.append_nil]
  · have hparents : p ∈ (s.unloaded L).parents y ↔ p ∉ L ∧ y ∈ s.children p := by
      rw [← h.links p y]
      simp [unloaded, without, and_comm]
    rw [hparents]
    by_cases hp : p ∈ L <;> simp [unloaded, without, hp]

/-! ## A successful call -/

/-- The tasks of the new libraries together are all tasks but the first. -/
theorem sum_countP_done (p : ι → Bool) : ∀ {done : List (ι × Option ι)},
    (∀ t ∈ done, ∀ x, t.2 = some x → x ∈ new) →
    ∑ x ∈ new.toFinset, ((done.filter (·.2 = some x)).map Prod.fst).countP p =
      done.countP fun t => t.2.isSome && p t.1 := by
  intro done
  induction done with
  | nil => intro _; simp
  | cons t done ih =>
    intro hdone
    obtain ⟨ht, hrest⟩ := List.forall_mem_cons.mp hdone
    obtain ⟨y, neededBy⟩ := t
    rw [List.countP_cons, ← ih hrest]
    cases neededBy with
    | none => simp
    | some z =>
      have hterm (x : ι) : ((((y, some z) :: done).filter (·.2 = some x)).map Prod.fst).countP p =
          ((done.filter (·.2 = some x)).map Prod.fst).countP p +
            if z = x then (if p y then 1 else 0) else 0 := by
        by_cases hx : z = x
        · simp [hx, List.countP_cons]
        · simp [hx]
      have hz : z ∈ new.toFinset := List.mem_toFinset.mpr (ht z rfl)
      simp only [hterm, Finset.sum_add_distrib, Finset.sum_ite_eq, if_pos hz]
      rfl

section
variable {isLinked : ι → Bool} {localGroupRoot : ι → Option ι} {refCount : ι → Nat}

/-- What the new libraries refer to is what the tasks count. -/
theorem Expanding.countP_countsFor (h : Expanding U s₀ new [] done s)
    (hnew : ∀ x ∈ new, localGroupRoot x = some root) {r : ι} (hne : r ≠ root) :
    done.countP (countsFor { s with localGroupRoot } r) =
      ∑ x ∈ new.toFinset, (s.children x).countP (localGroupRoot · = some r) := by
  rw [Finset.sum_congr rfl fun x hx => by rw [h.children_new x (List.mem_toFinset.mp hx)],
    sum_countP_done _ fun t ht => (h.neededBy_done t ht).2]
  refine List.countP_congr fun t ht => ?_
  obtain ⟨y, neededBy⟩ := t
  cases neededBy with
  | none => simp [countsFor]
  | some x =>
    have hx := hnew x ((h.neededBy_done _ ht).2 x rfl)
    have hroot : localGroupRoot y = some r → ¬some root = localGroupRoot y := fun heq heq' =>
      hne (Option.some.inj (heq.symm.trans heq'.symm))
    simpa [countsFor, hx] using hroot

/-- The references from outside, with those of the new libraries. -/
theorem Expanding.outside_eq (h : Expanding U s₀ new [] done s) (h₀ : Inv U s₀ refs)
    (hold : ∀ x ∈ s₀.solist, localGroupRoot x = s₀.localGroupRoot x)
    (hnew : ∀ x ∈ new, localGroupRoot x = some root) {r : ι} :
    outside { s with isLinked, localGroupRoot, refCount } r = s₀.outside r +
      if r = root then 0
      else ∑ x ∈ new.toFinset, (s.children x).countP (localGroupRoot · = some r) := by
  have hdisjoint : Disjoint (s₀.solist.toFinset.filter (localGroupRoot · ≠ some r))
      (new.toFinset.filter (localGroupRoot · ≠ some r)) := by
    refine Finset.disjoint_filter_filter (Finset.disjoint_left.mpr fun x hx hx' => ?_)
    exact h.not_mem_new (List.mem_toFinset.mp hx) (List.mem_toFinset.mp hx')
  have hsplit : s.solist.toFinset.filter (localGroupRoot · ≠ some r) =
      s₀.solist.toFinset.filter (localGroupRoot · ≠ some r) ∪
        new.toFinset.filter (localGroupRoot · ≠ some r) := by
    rw [h.solist, List.toFinset_append, Finset.filter_union]
  have hfilter : s₀.solist.toFinset.filter (localGroupRoot · ≠ some r) =
      s₀.solist.toFinset.filter (s₀.localGroupRoot · ≠ some r) :=
    Finset.filter_congr fun x hx => by rw [hold x (List.mem_toFinset.mp hx)]
  have houtside : outside { s with isLinked, localGroupRoot, refCount } r =
      ∑ x ∈ s.solist.toFinset.filter (localGroupRoot · ≠ some r),
        (s.children x).countP (localGroupRoot · = some r) := rfl
  rw [houtside, hsplit, Finset.sum_union hdisjoint, hfilter, Loaded.outside]
  congr 1
  · refine Finset.sum_congr rfl fun x hx => ?_
    have hx : x ∈ s₀.solist := List.mem_toFinset.mp (Finset.mem_filter.mp hx).1
    rw [h.children_old x (h.not_mem_new hx)]
    refine List.countP_congr fun y hy => ?_
    rw [hold y (h₀.mem_of_link x y hy).2]
  · split
    · next heq =>
      rw [Finset.filter_eq_empty_iff.mpr fun x hx => ?_, Finset.sum_empty]
      rw [hnew x (List.mem_toFinset.mp hx), heq]
      exact not_not.mpr rfl
    · next hne =>
      rw [Finset.filter_eq_self.mpr fun x hx => ?_]
      rw [hnew x (List.mem_toFinset.mp hx)]
      exact fun heq => hne (Option.some.inj heq).symm

theorem Expanding.mem_solist (h : Expanding U s₀ new [] done s) {x : ι} :
    x ∈ s.solist ↔ x ∈ s₀.solist ∨ x ∈ new := by
  rw [h.solist, List.mem_append]

/-- The groups that were there are the same. -/
theorem Inv.old_root (h₀ : Inv U s₀ refs)
    (hold : ∀ x ∈ s₀.solist, localGroupRoot x = s₀.localGroupRoot x) {x r : ι} (hx : x ∈ s₀.solist)
    (hr : localGroupRoot x = some r) : r ∈ s₀.solist := by
  obtain ⟨r', hr', hgroup, -⟩ := h₀.group x hx
  rwa [Option.some.inj (hr.symm.trans ((hold x hx).trans hgroup))]

/-- The references into a group are counted at its root. -/
theorem Expanding.count (h : Expanding U s₀ new [] done s) (h₀ : Inv U s₀ refs)
    (hold : ∀ x ∈ s₀.solist, localGroupRoot x = s₀.localGroupRoot x)
    (hnew : ∀ x ∈ new, localGroupRoot x = some root)
    (hroot : root ∈ new ∨ new = [] ∧ root ∈ s₀.solist)
    (hcount : ∀ r, refCount r = s.refCount r + done.countP (countsFor { s with localGroupRoot } r) +
      if localGroupRoot root = some r then 1 else 0)
    {r : ι} (hr : r ∈ s.solist) (hself : localGroupRoot r = some r) :
    refCount r = (root :: refs).countP (localGroupRoot · = some r) +
      outside { s with isLinked, localGroupRoot, refCount } r := by
  have hrefs : refs.countP (localGroupRoot · = some r) =
      refs.countP (s₀.localGroupRoot · = some r) :=
    List.countP_congr fun x hx => by rw [hold x (h₀.mem_refs x hx)]
  rw [hcount, h.outside_eq h₀ hold hnew, List.countP_cons]
  simp only [decide_eq_true_eq, hrefs]
  rcases h.mem_solist.mp hr with hr | hr
  · rw [h.refCount_old r hr, h₀.count r hr ((hold r hr).symm.trans hself)]
    rcases hroot with hroot | ⟨hnil, -⟩
    · have hne : r ≠ root := fun heq => h.not_mem_new hr (heq ▸ hroot)
      rw [if_neg hne, h.countP_countsFor hnew hne]
      omega
    · subst hnil
      have hcounts : done.countP (countsFor { s with localGroupRoot } r) = 0 := by
        refine List.countP_eq_zero.mpr fun t ht => ?_
        obtain ⟨y, neededBy⟩ := t
        cases neededBy with
        | none => simp [countsFor]
        | some x => cases (h.neededBy_done _ ht).2 x rfl
      rw [hcounts]
      simp only [List.toFinset_nil, Finset.sum_empty, ite_self]
      omega
  · -- nothing refers to the new group but the call
    obtain rfl : root = r := Option.some.inj ((hnew r hr).symm.trans hself)
    have hno {x : ι} (hx : x ∈ s₀.solist) : s₀.localGroupRoot x ≠ some root := fun heq =>
      h.not_mem_new (h₀.old_root hold hx ((hold x hx).trans heq)) hr
    have houtside : s₀.outside root = 0 := by
      refine Finset.sum_eq_zero fun x hx => List.countP_eq_zero.mpr fun y hy => ?_
      simpa using hno (h₀.mem_of_link x y hy).2
    have hnone : refs.countP (s₀.localGroupRoot · = some root) = 0 :=
      List.countP_eq_zero.mpr fun x hx => by simpa using hno (h₀.mem_refs x hx)
    have hcounts : done.countP (countsFor { s with localGroupRoot } root) = 0 := by
      refine List.countP_eq_zero.mpr fun t ht => ?_
      obtain ⟨y, neededBy⟩ := t
      cases neededBy with
      | none => simp [countsFor]
      | some x =>
        have hx := hnew x ((h.neededBy_done _ ht).2 x rfl)
        simpa [countsFor, hx] using fun h h' => h h'.symm
    rw [h.refCount_new root hr, houtside, hnone, hcounts, if_pos rfl, if_pos hself]

/-- The new group is the youngest. -/
theorem Expanding.older (h : Expanding U s₀ new [] done s) (h₀ : Inv U s₀ refs)
    (hold : ∀ x ∈ s₀.solist, localGroupRoot x = s₀.localGroupRoot x)
    (hnew : ∀ x ∈ new, localGroupRoot x = some root)
    (hroot : ∀ x ∈ new, root ∈ new) :
    ∃ born : ι → Nat, ∀ x, ∀ y ∈ s.children x, ∀ r r',
      localGroupRoot x = some r → localGroupRoot y = some r' → r ≠ r' → born r' < born r := by
  obtain ⟨born, hborn⟩ := h₀.older
  refine ⟨fun r => if r ∈ s₀.solist then born r else ∑ x ∈ s₀.solist.toFinset, born x + 1,
    fun x y hy r r' hr hr' hne => ?_⟩
  by_cases hx : x ∈ new
  · obtain rfl : root = r := Option.some.inj ((hnew x hx).symm.trans hr)
    rcases h.mem_solist.mp (h.mem_of_link x y hy).2 with hyold | hynew
    · have hr'mem := h₀.old_root hold hyold hr'
      have hnot : root ∉ s₀.solist := fun hmem => h.not_mem_new hmem (hroot x hx)
      simp only [if_pos hr'mem, if_neg hnot]
      exact Nat.lt_succ_of_le (Finset.single_le_sum (f := born) (fun _ _ => Nat.zero_le _)
        (List.mem_toFinset.mpr hr'mem))
    · exact absurd (Option.some.inj ((hnew y hynew).symm.trans hr')) hne
  · have hy : y ∈ s₀.children x := h.children_old x hx ▸ hy
    obtain ⟨hxmem, hymem⟩ := h₀.mem_of_link x y hy
    simp only [if_pos (h₀.old_root hold hxmem hr), if_pos (h₀.old_root hold hymem hr')]
    exact hborn x y hy r r' ((hold x hxmem).symm.trans hr) ((hold y hymem).symm.trans hr') hne

/-- **The new libraries as a group**, with the reference of the call. -/
theorem Expanding.link (h : Expanding U s₀ new [] done s) (h₀ : Inv U s₀ refs)
    (hneeded : Needed root new done) (hroot : root ∈ new ∨ new = [] ∧ root ∈ s₀.solist)
    (hold : ∀ x ∈ s₀.solist, localGroupRoot x = s₀.localGroupRoot x)
    (hnew : ∀ x ∈ new, localGroupRoot x = some root)
    (hlinked : ∀ x ∈ s.solist, isLinked x = true)
    (hcount : ∀ r, refCount r = s.refCount r + done.countP (countsFor { s with localGroupRoot } r) +
      if localGroupRoot root = some r then 1 else 0) :
    Inv U { s with isLinked, localGroupRoot, refCount } (root :: refs) := by
  have hmem {x : ι} (hx : x ∈ s₀.solist) : x ∈ s.solist := h.mem_solist.mpr (.inl hx)
  have hrootmem (x : ι) (hx : x ∈ new) : root ∈ new :=
    hroot.resolve_right fun hnil => List.not_mem_nil (hnil.1 ▸ hx)
  refine ⟨h.nodup, h.mem_all, h.links, h.mem_of_link, fun x hx => ?_, hlinked, fun x hx => ?_,
    fun x hx hne => ?_, List.forall_mem_cons.mpr ⟨?_, fun x hx => hmem (h₀.mem_refs x hx)⟩,
    fun r hr hself => h.count h₀ hold hnew hroot hcount hr hself, fun r hr hself hzero => ?_,
    h.older h₀ hold hnew hrootmem⟩
  · rcases h.mem_solist.mp hx with hx | hx
    · rw [show s.children x = s₀.children x from h.children_old x (h.not_mem_new hx)]
      exact h₀.needed x hx
    · obtain ⟨names, hnames, heq⟩ := h.needed x hx
      rw [heq, List.filter_nil, List.map_nil, List.append_nil]
      exact hnames
  · rcases h.mem_solist.mp hx with hx | hx
    · obtain ⟨r, hr, hgroup, hself⟩ := h₀.group x hx
      exact ⟨r, hmem hr, (hold x hx).trans hgroup, (hold r hr).trans hself⟩
    · exact ⟨root, h.mem_solist.mpr (.inr (hrootmem x hx)), hnew x hx, hnew root (hrootmem x hx)⟩
  · rcases h.mem_solist.mp hx with hx | hx
    · obtain ⟨p, hp, hgroup⟩ := h₀.parent x hx ((hold x hx).symm.trans_ne hne)
      have hlink := (h₀.links p x).mp hp
      have hpmem := (h₀.mem_of_link p x hlink).1
      rw [← h.children_old p (h.not_mem_new hpmem)] at hlink
      exact ⟨p, (h.links p x).mpr hlink, (hold p hpmem).trans (hgroup.trans (hold x hx).symm)⟩
    · have hxroot : x ≠ root := fun heq => hne (heq ▸ hnew x hx)
      obtain ⟨y, hy, hdone⟩ := hneeded x hx hxroot
      refine ⟨y, (h.links y x).mpr ?_, (hnew y hy).trans (hnew x hx).symm⟩
      rw [h.children_new y hy]
      exact List.mem_map_of_mem (List.mem_filter.mpr ⟨hdone, by simp⟩)
  · exact hroot.elim (fun hmem => h.mem_solist.mpr (.inr hmem)) fun hnil => hmem hnil.2
  · have hzero := (hcount r).symm.trans hzero
    rcases h.mem_solist.mp hr with hr | hr
    · rw [h.refCount_old r hr] at hzero
      exact (h.keeps_old r hr).trans
        (h₀.alive r hr ((hold r hr).symm.trans hself) (by omega))
    · obtain rfl : root = r := Option.some.inj ((hnew r hr).symm.trans hself)
      rw [if_pos hself] at hzero
      omega

end

/-! ## `find_library` -/

/-- Every new library is in the group of the root. -/
theorem Expanding.exists_way (h : Expanding U s₀ new tasks done s) (h₀ : Inv U s₀ refs)
    (hneeded : Needed root new done) {x : ι} (hx : x ∈ new) :
    ∃ k, Way s.children (fun _ => True) root k x := by
  induction hn : U.all.sup U.rank - U.rank x using Nat.strong_induction_on generalizing x with
  | _ n ih =>
    by_cases hroot : x = root
    · exact ⟨0, hroot ▸ .root⟩
    obtain ⟨y, hy, hmem⟩ := hneeded x hx hroot
    have hlink : x ∈ s.children y := by
      rw [h.children_new y hy]
      exact List.mem_map_of_mem (List.mem_filter.mpr ⟨hmem, by simp⟩)
    have hlt := h.rank_lt h₀ hlink
    have hle : U.rank y ≤ U.all.sup U.rank := Finset.le_sup (h.mem_all y (h.mem_of_link y x hlink).1)
    obtain ⟨k, hk⟩ := ih _ (by omega) hy rfl
    exact ⟨k + 1, .child hk trivial hlink⟩

/-- The number of the references between libraries is bounded. -/
theorem Expanding.sum_children_le (h : Expanding U s₀ new tasks done s) (h₀ : Inv U s₀ refs) :
    ∑ x ∈ s.solist.toFinset, (s.children x).length ≤ ∑ x ∈ U.all, (U.needed x).length := by
  have hsub : s.solist.toFinset ⊆ U.all := fun x hx => h.mem_all x (List.mem_toFinset.mp hx)
  refine le_trans (Finset.sum_le_sum fun x hx => ?_) (Finset.sum_le_sum_of_subset hsub)
  by_cases hnew : x ∈ new
  · obtain ⟨names, hnames, heq⟩ := h.needed x hnew
    rw [heq, List.length_append, hnames.length_eq]
    exact Nat.le_add_right _ _
  · have hmem := List.mem_toFinset.mp hx
    rw [h.solist, List.mem_append] at hmem
    rw [h.children_old x hnew, (h₀.needed x (hmem.resolve_right hnew)).length_eq]

/-- A call that fails after something has been found. -/
def Failed (U : Universe ι) (s₀ : Loaded ι) (root : ι) (s : Loaded ι) : Prop :=
  ∃ new tasks done, Expanding U s₀ new tasks done s ∧ Needed root new done ∧ root ∈ new

/-- Where something is not linked, something is new. -/
theorem Expanding.root_mem (h : Expanding U s₀ new tasks done s) (h₀ : Inv U s₀ refs)
    {found : Bool} (hroot : root ∈ new ∨ new = [] ∧ found = true) {x : ι} (hx : x ∈ s.solist)
    (hlinked : s.isLinked x = false) : root ∈ new := by
  refine hroot.resolve_right fun ⟨hnil, _⟩ => ?_
  rw [h.solist, hnil, List.append_nil] at hx
  rw [h.isLinked_old x hx, h₀.linked x hx] at hlinked
  cases hlinked

omit [DecidableEq ι] in
theorem not_all_linked {f : ι → Bool} {tasks : List (ι × Option ι)}
    (h : ¬(tasks.all fun t => s.isLinked t.1 || f t.1) = true) :
    ∃ t ∈ tasks, s.isLinked t.1 = false := by
  rw [List.all_eq_true, not_forall] at h
  obtain ⟨t, ht⟩ := h
  obtain ⟨hmem, hnot⟩ := Classical.not_imp.mp ht
  exact ⟨t, hmem, (Bool.or_eq_false_iff.mp (Bool.eq_false_iff.mpr hnot)).1⟩

end
end Loaded
end McpeLauncher.Linker
