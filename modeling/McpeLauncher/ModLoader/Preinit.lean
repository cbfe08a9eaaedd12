import McpeLauncher.ModLoader.LoadOrder

/-!
# The mods of the first pass

With `preinit`, a mod should be skipped exactly if it is tainted: if it or a mod that it depends on
needs `libminecraftpe.so`. The descent from a tainted mod stops at the first dependency that fails,
but what it has taken out of the set by then looks loaded to the mods that come later. So a tainted
mod is only skipped as long as there is a tainted dependency of it left in the set. `Covered` says
that this is so for every tainted mod; it depends on the order of the names.
-/

namespace McpeLauncher.ModLoader
open scoped List

namespace ModDir

/-- Follow from `f` the first dependency that is in the set, again and again. The walk ends with the
set `rest` at a mod that needs `libminecraftpe.so` itself. -/
inductive Chain (D : ModDir) : FileName → List FileName → List FileName → Prop
  | needs {left : List FileName} : D.needsMinecraft f = true → Chain D f left left
  | follow {left : List FileName} : D.needsMinecraft f = false →
      (D.getModDependencies f).find? (· ∈ left) = some d →
      Chain D d (left.erase d) rest → Chain D f left rest

/-- The walks from the first mod of the set, then from the first one that is left, and so on, all
end at mods that need `libminecraftpe.so` themselves. -/
inductive Covered (D : ModDir) : List FileName → Prop
  | nil : Covered D []
  | cons : Chain D f left rest → Covered D rest → Covered D (f :: left)

variable {D : ModDir} {left : List FileName}

open Classical in
/-- The tainted mods in the set. -/
noncomputable def tainted (D : ModDir) (left : List FileName) : List FileName :=
  left.filter fun f => decide (D.Tainted f)

theorem mem_tainted : f ∈ D.tainted left ↔ f ∈ left ∧ D.Tainted f := by
  simp [tainted]

theorem tainted_erase (hn : left.Nodup) (d : FileName) :
    D.tainted (left.erase d) = (D.tainted left).erase d := by
  rw [tainted, tainted, hn.erase_eq_filter, (hn.filter _).erase_eq_filter, List.filter_filter,
    List.filter_filter]
  simp only [Bool.and_comm]

/-- Loading mods that are not tainted leaves the tainted ones in the set. -/
theorem Loads.tainted_eq (h : D.Loads true front s s') (hfront : ∀ f ∈ front, ¬D.Tainted f) :
    D.tainted s'.otherMods = D.tainted s.otherMods := by
  obtain ⟨new, _, hperm, hclear⟩ := h.perm
  have hnew : D.tainted new = [] := by
    rw [List.eq_nil_iff_forall_not_mem]
    exact fun x hx => hclear x (mem_tainted.mp hx).1 rfl (mem_tainted.mp hx).2
  have hnone : D.tainted front = [] := by
    rw [List.eq_nil_iff_forall_not_mem]
    exact fun x hx => hfront x (mem_tainted.mp hx).1 (mem_tainted.mp hx).2
  have hfilter : (D.tainted s.otherMods).Perm (D.tainted s'.otherMods) := by
    have := hperm.filter fun f => @decide (D.Tainted f) (Classical.propDecidable _)
    rw [List.filter_append, List.filter_append] at this
    change (D.tainted front ++ _) ~ (D.tainted new ++ _) at this
    rwa [hnone, hnew] at this
  exact (h.otherMods.filter _).eq_of_length hfilter.length_eq.symm

/-! ## One tainted mod -/

/-- The loop over the dependencies gets to the first tainted one that is still in the set. -/
theorem loadDependencies_find {rec : FileName → LoadState → Option (Bool × LoadState)} {n : Nat}
    (hrec : ∀ f s, f ∈ D.modsToLoad → D.Clear true f → D.Valid s → s.otherMods.length < n →
      ∃ s', rec f s = some (true, s') ∧ D.Loads true [f] s s')
    (deps : List FileName) (s : LoadState) (hv : D.Valid s) (h : s.otherMods.length ≤ n)
    (hfind : deps.find? (· ∈ D.tainted s.otherMods) = some d) :
    ∃ rest s₁, D.Loads true [] s s₁ ∧ d ∈ s₁.otherMods ∧
      loadDependencies rec deps s = loadDependencies rec (d :: rest) s₁ := by
  induction deps generalizing s with
  | nil => cases hfind
  | cons dep deps ih =>
    by_cases htaint : dep ∈ D.tainted s.otherMods
    · rw [List.find?_cons_of_pos (by simpa using htaint), Option.some.injEq] at hfind
      subst hfind
      exact ⟨deps, s, ⟨.refl s, [], by simp⟩, (mem_tainted.mp htaint).1, rfl⟩
    · rw [List.find?_cons_of_neg (by simpa using htaint)] at hfind
      rw [mem_tainted, not_and] at htaint
      by_cases hmem : dep ∈ s.otherMods
      · obtain ⟨s₁, hcall, hloads⟩ := hrec dep { s with otherMods := s.otherMods.erase dep }
          (hv.mem dep hmem) (fun _ => htaint hmem) (hv.extends (.erase s dep))
          (length_erase_lt hmem h)
        have hloads₁ := Loads.of_erase hmem hloads
        obtain ⟨rest, s₂, hloads₂, hd, heq⟩ := ih s₁ (hv.extends hloads₁.toExtends)
          (hloads₁.otherMods.length_le.trans h) (by rw [hloads₁.tainted_eq (by simp)]; exact hfind)
        refine ⟨rest, s₂, hloads₁.trans hloads₂, hd, ?_⟩
        rw [← heq, loadDependencies, if_pos hmem, hcall]
        simp only [Option.bind_eq_bind, Option.bind_some, if_true,
          erase_loaded hv hloads.toExtends]
      · obtain ⟨rest, s₂, hloads, hd, heq⟩ := ih s hv h hfind
        exact ⟨rest, s₂, hloads, hd, by rw [← heq, loadDependencies, if_neg hmem]⟩

/-- What a skipped mod leaves: only mods that are not tainted have been loaded, and the set has lost
those and the mods of the walk. -/
structure Skips (D : ModDir) (rest : List FileName) (s s' : LoadState) : Prop extends
    Extends s s' where
  tainted : D.tainted s'.otherMods = rest
  loads : ∃ new, s'.loaded = s.loaded ++ new ∧ (∀ x ∈ new, x ∈ D.modsToLoad ∧ ¬D.Tainted x) ∧
    ∀ x ∈ s.otherMods, ¬D.Tainted x → x ∈ new ∨ x ∈ s'.otherMods

theorem Loads.skips (h : D.Loads true front s s') (hv : D.Valid s)
    (hfront : ∀ f ∈ front, f ∈ D.modsToLoad ∧ ¬D.Tainted f) :
    D.Skips (D.tainted s.otherMods) s s' := by
  obtain ⟨new, hloaded, hperm, hclear⟩ := h.perm
  refine ⟨h.toExtends, h.tainted_eq fun f hf => (hfront f hf).2, new, hloaded,
    fun x hx => ⟨?_, hclear x hx rfl⟩,
    fun x hx _ => List.mem_append.mp (hperm.subset (List.mem_append_right _ hx))⟩
  rcases List.mem_append.mp (hperm.symm.subset (List.mem_append_left _ hx)) with hx | hx
  · exact (hfront x hx).1
  · exact hv.mem x hx

theorem Skips.trans (h : D.Skips rest s s') (h' : D.Skips rest' s' s'') : D.Skips rest' s s'' := by
  obtain ⟨new, hloaded, hclear, hmem⟩ := h.loads
  obtain ⟨new', hloaded', hclear', hmem'⟩ := h'.loads
  refine ⟨h.toExtends.trans h'.toExtends, h'.tainted, new ++ new', ?_, fun x hx => ?_,
    fun x hx hx' => ?_⟩
  · rw [hloaded', hloaded, List.append_assoc]
  · rcases List.mem_append.mp hx with hx | hx
    · exact hclear x hx
    · exact hclear' x hx
  · rcases hmem x hx hx' with hnew | hother
    · exact .inl (List.mem_append_left _ hnew)
    · rcases hmem' x hother hx' with hnew | hother
      · exact .inl (List.mem_append_right _ hnew)
      · exact .inr hother

theorem Skips.erase (hv : D.Valid s) (hd : D.Tainted d) :
    D.Skips ((D.tainted s.otherMods).erase d) s { s with otherMods := s.otherMods.erase d } := by
  refine ⟨.erase s d, tainted_erase hv.nodup d, [], by simp, by simp, fun x hx hclear => .inr ?_⟩
  refine (List.mem_erase_of_ne ?_).mpr hx
  rintro rfl
  exact hclear hd

/-- A mod from which the walk ends well is skipped. -/
theorem loadModMulti_chain (fuel : Nat) (f : FileName) (s : LoadState) (hf : f ∈ D.modsToLoad)
    (hv : D.Valid s) (h : s.otherMods.length < fuel)
    (hchain : D.Chain f (D.tainted s.otherMods) rest) :
    ∃ s', D.loadModMulti true fuel f s = some (false, s') ∧ D.Skips rest s s' := by
  induction fuel generalizing f s with
  | zero => omega
  | succ fuel ih =>
    cases hchain with
    | needs hneeds =>
      exact ⟨s, by simp [loadModMulti, hneeds],
        ⟨.refl s, rfl, [], by simp, by simp, fun x hx _ => .inr hx⟩⟩
    | follow hneeds hfind hchain =>
      rename_i d
      have hd : d ∈ D.tainted s.otherMods := by simpa using List.find?_some hfind
      obtain ⟨deps, s₁, hloads, hmem, hloop⟩ := loadDependencies_find
        (fun f s => loadModMulti_clear fuel f s) _ s hv (Nat.le_of_lt_succ h) hfind
      have hv₁ := hv.extends hloads.toExtends
      have hskips := (hloads.skips hv (by simp)).trans (.erase hv₁ (mem_tainted.mp hd).2)
      rw [hloads.tainted_eq (by simp)] at hskips
      obtain ⟨s₂, hcall, hskips₂⟩ := ih d { s₁ with otherMods := s₁.otherMods.erase d }
        (hv₁.mem d hmem) (hv₁.extends (.erase s₁ d))
        (length_erase_lt hmem (hloads.otherMods.length_le.trans (Nat.le_of_lt_succ h)))
        (by rw [hskips.tainted]; exact hchain)
      refine ⟨s₂, ?_, hskips.trans hskips₂⟩
      rw [loadModMulti, hneeds, hloop, loadDependencies, if_pos hmem, hcall]
      rfl

/-- What has been loaded when the descent comes back from a dependency `d` of `f` stays loaded. -/
theorem loaded_prefix_of_follow {fuel : Nat} {deps : List FileName} {s s₁ s₂ s₃ : LoadState}
    (hneeds : D.needsMinecraft f = false)
    (hloop : loadDependencies (D.loadModMulti true fuel) (D.getModDependencies f) s =
      loadDependencies (D.loadModMulti true fuel) (d :: deps) s₁) (hmem : d ∈ s₁.otherMods)
    (hcall : D.loadModMulti true fuel d { s₁ with otherMods := s₁.otherMods.erase d } =
      some (ok, s₂)) (hle : s₂.otherMods.length ≤ fuel)
    (heq : D.loadModMulti true (fuel + 1) f s = some (ok', s₃)) : s₂.loaded <+: s₃.loaded := by
  rw [loadModMulti, hneeds, hloop, loadDependencies, if_pos hmem, hcall] at heq
  simp only [Bool.and_false, Bool.false_eq_true, if_false, Option.bind_eq_bind,
    Option.bind_some] at heq
  cases ok with
  | false =>
    simp only [Bool.false_eq_true, if_false, Option.pure_def, Option.bind_some,
      Option.some.injEq, Prod.mk.injEq] at heq
    obtain ⟨-, rfl⟩ := heq
    exact List.prefix_rfl
  | true =>
    obtain ⟨ok₄, s₄, hloop₄, hext₄⟩ := loadDependencies_total (n := fuel)
      (fun f s => D.loadModMulti_total true fuel f s) deps
      { s₂ with otherMods := s₂.otherMods.erase d } (List.erase_sublist.length_le.trans hle)
    simp only [if_true, hloop₄, Option.bind_some] at heq
    cases ok₄ with
    | false =>
      simp only [Bool.false_eq_true, if_false, Option.pure_def, Option.some.injEq,
        Prod.mk.injEq] at heq
      obtain ⟨-, rfl⟩ := heq
      exact hext₄.loaded
    | true =>
      simp only [if_true, Option.pure_def, Option.some.injEq, Prod.mk.injEq] at heq
      obtain ⟨-, rfl⟩ := heq
      exact hext₄.loaded.trans (List.prefix_append ..)

/-- A tainted mod from which the walk ends elsewhere leads to a tainted mod being loaded. -/
theorem loadModMulti_stuck (fuel : Nat) (f : FileName) (s : LoadState) (hf : f ∈ D.modsToLoad)
    (htaint : D.Tainted f) (hv : D.Valid s) (h : s.otherMods.length < fuel)
    (hchain : ¬∃ rest, D.Chain f (D.tainted s.otherMods) rest) :
    ∃ ok s', D.loadModMulti true fuel f s = some (ok, s') ∧ Extends s s' ∧
      ∃ x ∈ s'.loaded, D.Tainted x := by
  induction fuel generalizing f s with
  | zero => omega
  | succ fuel ih =>
    have hneeds : D.needsMinecraft f = false := by
      by_contra hneeds
      exact hchain ⟨_, .needs (by simpa using hneeds)⟩
    cases hfind : (D.getModDependencies f).find? (· ∈ D.tainted s.otherMods) with
    | none =>
      have hclear : ∀ d ∈ D.getModDependencies f, d ∈ s.otherMods → D.Clear true d :=
        fun d hd hmem _ htaint =>
          List.find?_eq_none.mp hfind d hd (by simpa using mem_tainted.mpr ⟨hmem, htaint⟩)
      obtain ⟨s₁, hloop, hloads, _⟩ := loadDependencies_clear
        (fun f s => loadModMulti_clear fuel f s) (D.getModDependencies f) s hv
        (Nat.le_of_lt_succ h) hclear
      refine ⟨true, { s₁ with loaded := s₁.loaded ++ [f] }, ?_, ⟨hloads.otherMods,
        hloads.loaded.trans (List.prefix_append ..)⟩, f, by simp, htaint⟩
      rw [loadModMulti, hneeds, hloop]
      rfl
    | some d =>
      have hd : d ∈ D.tainted s.otherMods := by simpa using List.find?_some hfind
      obtain ⟨deps, s₁, hloads, hmem, hloop⟩ := loadDependencies_find
        (fun f s => loadModMulti_clear fuel f s) _ s hv (Nat.le_of_lt_succ h) hfind
      have hv₁ := hv.extends hloads.toExtends
      have hle := hloads.otherMods.length_le.trans (Nat.le_of_lt_succ h)
      have hstuck : ¬∃ rest, D.Chain d (D.tainted (s₁.otherMods.erase d)) rest := by
        rw [tainted_erase hv₁.nodup, hloads.tainted_eq (by simp)]
        rintro ⟨rest, hrest⟩
        exact hchain ⟨rest, .follow hneeds hfind hrest⟩
      obtain ⟨ok, s₂, hcall, hext, x, hx, hxt⟩ :=
        ih d { s₁ with otherMods := s₁.otherMods.erase d } (hv₁.mem d hmem) (mem_tainted.mp hd).2
          (hv₁.extends (.erase s₁ d)) (length_erase_lt hmem hle) hstuck
      obtain ⟨ok', s₃, heq, hext₃⟩ := D.loadModMulti_total true (fuel + 1) f s h
      have hle₂ := ((Extends.erase s₁ d).trans hext).otherMods.length_le.trans hle
      exact ⟨ok', s₃, heq, hext₃, x,
        (loaded_prefix_of_follow hneeds hloop hmem hcall hle₂ heq).subset hx, hxt⟩

/-! ## The whole directory -/

theorem loadLoop_total (preinit : Bool) (fuel : Nat) (s : LoadState)
    (h : s.otherMods.length < fuel) :
    ∃ s', D.loadLoop preinit fuel s = some s' ∧ s.loaded <+: s'.loaded := by
  induction fuel generalizing s with
  | zero => omega
  | succ fuel ih =>
    rw [loadLoop]
    split
    · exact ⟨s, rfl, List.prefix_rfl⟩
    · next f rest hcons =>
      rw [hcons] at h
      obtain ⟨ok, s₁, hcall, hext⟩ := D.loadModMulti_total preinit (fuel + 1) f
        { s with otherMods := rest } (Nat.lt_of_succ_lt h)
      obtain ⟨s₂, hloop, hpre⟩ :=
        ih s₁ (hext.otherMods.length_le.trans_lt (Nat.lt_of_succ_lt_succ h))
      exact ⟨s₂, by rw [hcall]; exact hloop, hext.loaded.trans hpre⟩

theorem tainted_cons_of_pos (h : D.Tainted f) : D.tainted (f :: left) = f :: D.tainted left := by
  simp [tainted, h]

theorem tainted_cons_of_neg (h : ¬D.Tainted f) : D.tainted (f :: left) = D.tainted left := by
  simp [tainted, h]

theorem tail_eq_erase {s : LoadState} (hcons : s.otherMods = f :: rest) :
    ({ s with otherMods := rest } : LoadState) = { s with otherMods := s.otherMods.erase f } := by
  rw [hcons, List.erase_cons_head]

/-- One round of the loop over a covered set leaves a covered set. -/
theorem round_covered (fuel : Nat) (s : LoadState) (hv : D.Valid s) (hcons : s.otherMods = f :: rest)
    (h : rest.length < fuel) (hcov : D.Covered (D.tainted s.otherMods)) :
    ∃ ok s₁ left, D.loadModMulti true fuel f { s with otherMods := rest } = some (ok, s₁) ∧
      D.Skips left s s₁ ∧ D.Covered left := by
  have hmem : f ∈ s.otherMods := by simp [hcons]
  have hv' := hv.tail hcons
  by_cases htaint : D.Tainted f
  · rw [hcons, tainted_cons_of_pos htaint] at hcov
    cases hcov with
    | cons hchain hcov =>
      obtain ⟨s₁, hcall, hskips⟩ := loadModMulti_chain fuel f { s with otherMods := rest }
        (hv.mem f hmem) hv' h hchain
      rw [tail_eq_erase hcons] at hskips
      exact ⟨false, s₁, _, hcall, (Skips.erase hv htaint).trans hskips, hcov⟩
  · have hclear : D.Clear true f := fun _ => htaint
    obtain ⟨s₁, hcall, hloads⟩ := loadModMulti_clear fuel f { s with otherMods := rest }
      (hv.mem f hmem) hclear hv' h
    rw [tail_eq_erase hcons] at hloads
    exact ⟨true, s₁, _, hcall, (Loads.of_erase hmem hloads).skips hv (by simp), hcov⟩

/-- If all walks end well, all tainted mods are skipped and all others are loaded. -/
theorem loadLoop_covered (fuel : Nat) (s : LoadState) (hv : D.Valid s)
    (h : s.otherMods.length < fuel) (hcov : D.Covered (D.tainted s.otherMods)) :
    ∃ s', D.loadLoop true fuel s = some s' ∧ s'.otherMods = [] ∧ D.Skips [] s s' := by
  induction fuel generalizing s with
  | zero => omega
  | succ fuel ih =>
    rw [loadLoop]
    split
    · next hnil =>
      exact ⟨s, rfl, hnil, .refl s, by simp [hnil, tainted], [], by simp, by simp, by simp [hnil]⟩
    · next f rest hcons =>
      obtain ⟨ok, s₁, left, hcall, hskips, hcov₁⟩ := round_covered (fuel + 1) s hv hcons
        (by rw [hcons, List.length_cons] at h; omega) hcov
      have hlt : s₁.otherMods.length < fuel := by
        obtain ⟨_, s₁', hcall', hext⟩ := D.loadModMulti_total true (fuel + 1) f
          { s with otherMods := rest } (by rw [hcons, List.length_cons] at h; exact Nat.lt_of_succ_lt h)
        cases hcall.symm.trans hcall'
        rw [hcons, List.length_cons] at h
        exact hext.otherMods.length_le.trans_lt (Nat.lt_of_succ_lt_succ h)
      obtain ⟨s₂, hloop, hnil, hskips₂⟩ := ih s₁ (hv.extends hskips.toExtends) hlt
        (by rw [hskips.tainted]; exact hcov₁)
      exact ⟨s₂, by rw [hcall]; exact hloop, hnil, hskips.trans hskips₂⟩

/-- If some walk ends elsewhere, a tainted mod is loaded. -/
theorem loadLoop_not_covered (fuel : Nat) (s : LoadState) (hv : D.Valid s)
    (h : s.otherMods.length < fuel) (hcov : ¬D.Covered (D.tainted s.otherMods)) :
    ∃ s', D.loadLoop true fuel s = some s' ∧ ∃ x ∈ s'.loaded, D.Tainted x := by
  induction fuel generalizing s with
  | zero => omega
  | succ fuel ih =>
    rw [loadLoop]
    split
    · next hnil =>
      exact absurd (by rw [hnil]; exact .nil) hcov
    · next f rest hcons =>
      rw [hcons] at h hcov
      have hf := hv.mem f (by simp [hcons])
      have hv' := hv.tail hcons
      have hlt : rest.length < fuel + 1 := Nat.lt_of_succ_lt h
      by_cases hgood : D.Tainted f → ∃ left, D.Chain f (D.tainted rest) left
      · -- the walk from `f` ends well, or there is none, so a later one does not
        obtain ⟨ok, s₁, hcall, hext, hcov₁⟩ : ∃ ok s₁, D.loadModMulti true (fuel + 1) f
            { s with otherMods := rest } = some (ok, s₁) ∧
            Extends { s with otherMods := rest } s₁ ∧ ¬D.Covered (D.tainted s₁.otherMods) := by
          by_cases htaint : D.Tainted f
          · obtain ⟨left, hchain⟩ := hgood htaint
            obtain ⟨s₁, hcall, hskips⟩ := loadModMulti_chain (fuel + 1) f
              { s with otherMods := rest } hf hv' hlt hchain
            refine ⟨false, s₁, hcall, hskips.toExtends, fun hcov₁ => hcov ?_⟩
            rw [tainted_cons_of_pos htaint]
            exact .cons hchain (hskips.tainted ▸ hcov₁)
          · have hclear : D.Clear true f := fun _ => htaint
            obtain ⟨s₁, hcall, hloads⟩ := loadModMulti_clear (fuel + 1) f
              { s with otherMods := rest } hf hclear hv' hlt
            refine ⟨true, s₁, hcall, hloads.toExtends, ?_⟩
            rw [hloads.tainted_eq (by simpa using htaint), ← tainted_cons_of_neg htaint]
            exact hcov
        obtain ⟨s₂, hloop, hx⟩ := ih s₁ (hv'.extends hext)
          (hext.otherMods.length_le.trans_lt (Nat.lt_of_succ_lt_succ h)) hcov₁
        exact ⟨s₂, by rw [hcall]; exact hloop, hx⟩
      · rw [Classical.not_imp] at hgood
        obtain ⟨ok, s₁, hcall, hext, x, hx, hxt⟩ := loadModMulti_stuck (fuel + 1) f
          { s with otherMods := rest } hf hgood.1 hv' hlt hgood.2
        obtain ⟨s₂, hloop, hpre⟩ := loadLoop_total (D := D) true fuel s₁
          (hext.otherMods.length_le.trans_lt (Nat.lt_of_succ_lt_succ h))
        exact ⟨s₂, by rw [hcall]; exact hloop, x, hpre.subset hx, hxt⟩

/-- With this order of the mods, exactly those are loaded that are not tainted. -/
def SelectsClosure (D : ModDir) (fuel : Nat) (order : List FileName) : Prop :=
  ∃ loaded, D.loadInOrder true fuel order = some loaded ∧
    ∀ x, x ∈ loaded ↔ x ∈ D.modsToLoad ∧ ¬D.Tainted x

theorem selectsClosure_iff (h : order.Perm D.modsToLoad) (hfuel : D.modsToLoad.length < fuel) :
    D.SelectsClosure fuel order ↔ D.Covered (D.tainted order) := by
  have hv := D.valid_modsToLoad order h
  have hlt : order.length < fuel := h.length_eq ▸ hfuel
  constructor
  · rintro ⟨loaded, hload, hmem⟩
    by_contra hcov
    obtain ⟨s, hloop, x, hx, hxt⟩ := loadLoop_not_covered fuel ⟨order, []⟩ hv hlt hcov
    rw [loadInOrder, hloop, Option.map_some, Option.some.injEq] at hload
    exact ((hmem x).mp (hload ▸ hx)).2 hxt
  · intro hcov
    obtain ⟨s, hloop, hnil, hskips⟩ := loadLoop_covered fuel ⟨order, []⟩ hv hlt hcov
    obtain ⟨new, hloaded, hnew, hall⟩ := hskips.loads
    rw [List.nil_append] at hloaded
    refine ⟨s.loaded, by rw [loadInOrder, hloop]; rfl, fun x => ?_⟩
    rw [hloaded]
    refine ⟨hnew x, fun hx => (hall x (h.symm.subset hx.1) hx.2).resolve_right ?_⟩
    rw [hnil]
    exact List.not_mem_nil

/-! ## All orders -/

theorem covered_of_needs (h : ∀ f ∈ left, D.needsMinecraft f = true) : D.Covered left := by
  induction left with
  | nil => exact .nil
  | cons f left ih =>
    exact .cons (.needs (h f List.mem_cons_self)) (ih fun f hf => h f (List.mem_cons_of_mem _ hf))

/-- If no mod comes before one that it depends on, the walks do not get anywhere. -/
theorem Covered.needs (h : D.Covered left)
    (hpair : left.Pairwise fun a b => b ∉ D.getModDependencies a) :
    ∀ f ∈ left, D.needsMinecraft f = true := by
  induction h with
  | nil => simp
  | cons hchain hcov ih =>
    rename_i f left rest
    obtain ⟨hf, hleft⟩ := List.pairwise_cons.mp hpair
    cases hchain with
    | needs hneeds =>
      intro x hx
      rcases List.mem_cons.mp hx with rfl | hx
      · exact hneeds
      · exact ih hleft x hx
    | follow _ hfind _ =>
      exact absurd (List.mem_of_find?_eq_some hfind) (hf _ (by simpa using List.find?_some hfind))

theorem Ordered.pairwise (h : D.Ordered l) (hn : l.Nodup) :
    l.Pairwise fun a b => ¬D.DependsOn a b := by
  rw [List.pairwise_iff_forall_sublist]
  intro a b hab hdep
  obtain ⟨l₁, l₂, rfl, ha, hb⟩ := List.cons_sublist_iff.mp hab
  obtain ⟨before, after, rfl⟩ := List.append_of_mem ha
  have hbefore := h before a (after ++ l₂) (by simp) b hdep
  exact (List.disjoint_of_nodup_append hn) (List.mem_append_left _ hbefore)
    (List.singleton_sublist.mp hb)

/-- Every order of the mods selects the right ones if and only if each tainted mod needs
`libminecraftpe.so` itself: otherwise a mod that only depends on such a mod is loaded when it comes
after all mods that it depends on. -/
theorem selectsClosure_all_iff (hacyclic : D.Acyclic) (hfuel : D.modsToLoad.length < fuel) :
    (∀ order, order.Perm D.modsToLoad → D.SelectsClosure fuel order) ↔
      ∀ f ∈ D.modsToLoad, D.Tainted f → D.needsMinecraft f = true := by
  constructor
  · intro hall f hf htaint
    obtain ⟨order, _, hperm, hord⟩ := D.loadInOrder_ordered D.modsToLoad (.refl _) fuel hfuel
    have hcov := (selectsClosure_iff hperm.symm hfuel).mp (hall order hperm.symm)
    have hpair := (hord hacyclic).pairwise (hperm.nodup_iff.mp D.nodup_modsToLoad)
    refine hcov.needs ?_ f (mem_tainted.mpr ⟨hperm.subset hf, htaint⟩)
    refine (hpair.sublist List.filter_sublist).imp_of_mem fun ha hb hdep hmem => hdep ⟨?_, ?_, hmem⟩
    · exact hperm.symm.subset (mem_tainted.mp ha).1
    · exact hperm.symm.subset (mem_tainted.mp hb).1
  · intro hneeds order horder
    rw [selectsClosure_iff horder hfuel]
    apply covered_of_needs
    intro f hf
    obtain ⟨hmem, htaint⟩ := mem_tainted.mp hf
    exact hneeds f (horder.subset hmem) htaint

/-- **The mods of the first pass**: for the names as they are, exactly the mods that are not tainted
are loaded if and only if the walks over the tainted mods in the order of their names all end at
mods that need `libminecraftpe.so` themselves; for every order of the mods, if and only if all
tainted mods do. -/
theorem loadModsFromDirectory_preinit_iff (D : ModDir) (hacyclic : D.Acyclic) (fuel : Nat)
    (hfuel : D.modsToLoad.length < fuel) :
    ((∃ loaded, D.loadModsFromDirectory true fuel = some loaded ∧
      ∀ x, x ∈ loaded ↔ x ∈ D.modsToLoad ∧ ¬D.Tainted x) ↔
        D.Covered (D.tainted D.modsToLoad)) ∧
    ((∀ order, order.Perm D.modsToLoad → ∃ loaded, D.loadInOrder true fuel order = some loaded ∧
      ∀ x, x ∈ loaded ↔ x ∈ D.modsToLoad ∧ ¬D.Tainted x) ↔
        ∀ f ∈ D.modsToLoad, D.Tainted f → D.needsMinecraft f = true) :=
  ⟨selectsClosure_iff (.refl _) hfuel, selectsClosure_all_iff hacyclic hfuel⟩

theorem exampleDir_acyclic : exampleDir.Acyclic := by
  have hdep : ∀ a b, exampleDir.DependsOn a b → a = "a.so".toList ∧ b = "b.so".toList := by
    rintro a b ⟨_, _, hb⟩
    simp only [exampleDir] at hb
    split at hb
    · next ha => exact ⟨ha, by simpa using hb⟩
    · cases hb
  intro a hpath
  obtain ⟨_, hfirst, _⟩ := Relation.TransGen.head'_iff.mp hpath
  obtain ⟨_, _, hlast⟩ := Relation.TransGen.tail'_iff.mp hpath
  exact absurd ((hdep _ _ hfirst).1.symm.trans (hdep _ _ hlast).2) (by decide)

theorem loadModsFromDirectory_preinit_exampleDir :
    exampleDir.Acyclic ∧ exampleDir.modsToLoad.length < 3 ∧
    ((∃ loaded, exampleDir.loadModsFromDirectory true 3 = some loaded ∧
      ∀ x, x ∈ loaded ↔ x ∈ exampleDir.modsToLoad ∧ ¬exampleDir.Tainted x) ↔
        exampleDir.Covered (exampleDir.tainted exampleDir.modsToLoad)) ∧
    ((∀ order, order.Perm exampleDir.modsToLoad →
      ∃ loaded, exampleDir.loadInOrder true 3 order = some loaded ∧
        ∀ x, x ∈ loaded ↔ x ∈ exampleDir.modsToLoad ∧ ¬exampleDir.Tainted x) ↔
        ∀ f ∈ exampleDir.modsToLoad, exampleDir.Tainted f → exampleDir.needsMinecraft f = true) :=
  ⟨exampleDir_acyclic, by decide,
    loadModsFromDirectory_preinit_iff exampleDir exampleDir_acyclic 3 (by decide)⟩

/-- A directory in which `b.so` depends on `a.so`, which needs `libminecraftpe.so`. -/
def taintedDir : ModDir where
  entries := ["a.so".toList, "b.so".toList]
  getModDependencies := fun f =>
    if f = "a.so".toList then ["libminecraftpe.so".toList]
    else if f = "b.so".toList then ["a.so".toList]
    else []

/-- `a.so` is skipped first, and looks loaded when `b.so` is loaded. -/
theorem loadModsFromDirectory_preinit_taintedDir : ¬∀ D : ModDir, D.Acyclic → ∃ loaded,
    D.loadModsFromDirectory true (D.modsToLoad.length + 1) = some loaded ∧
      ∀ x, x ∈ loaded ↔ x ∈ D.modsToLoad ∧ ¬D.Tainted x := by
  intro h
  have hdep : ∀ a b, taintedDir.DependsOn a b → a = "b.so".toList ∧ b = "a.so".toList := by
    rintro a b ⟨ha, hb, hdep⟩
    have hmods : taintedDir.modsToLoad = ["a.so".toList, "b.so".toList] := by decide
    rw [hmods] at ha hb
    simp only [List.mem_cons, List.not_mem_nil, or_false] at ha hb
    rcases ha with rfl | rfl <;> rcases hb with rfl | rfl <;> revert hdep <;> decide
  have hacyclic : taintedDir.Acyclic := by
    intro a hpath
    obtain ⟨_, hfirst, _⟩ := Relation.TransGen.head'_iff.mp hpath
    obtain ⟨_, _, hlast⟩ := Relation.TransGen.tail'_iff.mp hpath
    exact absurd ((hdep _ _ hfirst).1.symm.trans (hdep _ _ hlast).2) (by decide)
  obtain ⟨loaded, hload, hmem⟩ := h taintedDir hacyclic
  have hloaded : loaded = ["b.so".toList] := by
    have : taintedDir.loadModsFromDirectory true (taintedDir.modsToLoad.length + 1) =
        some ["b.so".toList] := by decide
    rw [this, Option.some.injEq] at hload
    exact hload.symm
  refine ((hmem "b.so".toList).mp (by rw [hloaded]; decide)).2 ⟨"a.so".toList, .single ?_, by decide⟩
  exact ⟨by decide, by decide, by decide⟩

end ModDir

end McpeLauncher.ModLoader
