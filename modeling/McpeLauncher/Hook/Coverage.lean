import McpeLauncher.Hook.Libraries
import McpeLauncher.Hook.Redirection

/-!
# Coverage

After `applyHooks`, every relocation that refers to a hooked symbol should go to the last hook of
the symbol, in its own library and in the libraries that need it and refer to it by name, in
whatever order the libraries were added and the hooks created. Three things stand in the way. The
table `DT_RELA` is not recorded. A dependent looks the name up among its definitions, so that it
does not find what it imports. And a library that is added when the symbol is already hooked is not
told. `CallOk` says that a call runs into none of these, and that no two symbols want the same slot.
-/

namespace McpeLauncher.Hook
open HookManager

variable {p : Process} {s s' : HookManager}

/-- The relocation of `M` refers to the symbol `j` of `L`. -/
def Refers (p : Process) (L : Handle) (j : Nat) (M : Handle) (r : Reloc) : Prop :=
  (M = L ∧ r.sym = j) ∨ (L ∈ (p.image M).needed ∧
    ∃ name, (p.image L).getSymbolName j = some name ∧ (p.image M).getSymbolName r.sym = some name)

/-- The relocations that refer to a hooked symbol go to the last hook of the symbol. -/
def Covered (p : Process) (s : HookManager) : Prop :=
  ∀ L a j sid k hook, s.libs.lookup L = some a → s.hookedSymbols a j = some sid →
    (s.symbols sid).lastHook = some k → s.hooks k = some hook →
    ∀ M ∈ s.libs, ∀ r ∈ (p.image M).relocs, r.type.supported → Refers p L j M r →
      s.mem r.addr = hook.replacement

namespace Coverage

/-- A symbol can be hooked for the first time: all relocations that refer to it are recorded and
will be bound to it, and none that will be bound to it is bound to another symbol. -/
def SymbolOk (p : Process) (s : HookManager) (L : Handle) (j : Nat) (name : String) : Prop :=
  ∀ M b i, s.libs.lookup M = some b → s.infos b = some i →
    ∀ r ∈ (p.image M).relocs, r.type.supported →
      (Refers p L j M r → r ∈ (p.image M).recorded ∧ Binds p L j name M r) ∧
        (Binds p L j name M r → i.hookedSymbols r.sym = none)

/-- The conditions for creating a hook. The word for the original is not a relocation slot. -/
def HookOk (p : Process) (s : HookManager) (L : Handle) (j replacement : Nat) (orig : Addr) :
    Prop :=
  ∀ a, s.libs.lookup L = some a →
    replacement ≠ 0 ∧ (∀ M, ∀ r ∈ (p.image M).relocs, r.addr ≠ orig) ∧
      (s.hookedSymbols a j = none →
        ∃ name, (p.image L).getSymbolName j = some name ∧ SymbolOk p s L j name)

/-- The call is one of `addLibrary`, `createHook` and `applyHooks`, and it is not one that loses a
relocation. -/
def CallOk (p : Process) (s : HookManager) : Call → Prop
  | .addLibrary M _ => M ∉ s.libs → ∀ L a j sid, s.libs.lookup L = some a →
      s.hookedSymbols a j = some sid → ∀ r ∈ (p.image M).relocs, r.type.supported →
        ¬Refers p L j M r
  | .createHook L j replacement orig => HookOk p s L j replacement orig
  | .createHookByName L name replacement orig =>
      (p.image L).getSymbolIndex name ≠ Image.noIndex →
        HookOk p s L ((p.image L).getSymbolIndex name) replacement orig
  | .applyHooks _ => True
  | .removeLibrary _ | .deleteHook _ => False

/-! ## The invariant -/

/-- The relocations that refer to a hooked symbol are recorded and bound to it. -/
def Bound (p : Process) (s : HookManager) : Prop :=
  ∀ L a j sid M b i, s.libs.lookup L = some a → s.hookedSymbols a j = some sid →
    s.libs.lookup M = some b → s.infos b = some i →
    ∀ r ∈ (p.image M).relocs, r.type.supported → Refers p L j M r →
      r ∈ (p.image M).recorded ∧ i.hookedSymbols r.sym = some sid

/-- The hooks at the ends are live, each hook has a replacement, and none wants its original in a
slot. -/
structure HooksInv (p : Process) (s : HookManager) : Prop where
  ends : LiveEnds s
  replacement : s.hooks k = some hook → hook.replacement ≠ 0
  orig : s.hooks k = some hook → ∀ M, ∀ r ∈ (p.image M).relocs, r.addr ≠ hook.orig

structure Inv (p : Process) (s : HookManager) : Prop extends SymbolsInv p s, HooksInv p s where
  bound : Bound p s

theorem Bound.frame (h : Bound p s) (hf : Frame s s') : Bound p s' := by
  intro L a j sid M b i hL hsid hM hi
  rw [hf.libs] at hL hM
  rw [hf.hookedSymbols] at hsid
  rw [hf.infos] at hi
  exact h L a j sid M b i hL hsid hM hi

theorem Inv.init (p : Process) (mem : Addr → Nat) : Inv p (init mem) where
  toSymbolsInv := .init p mem
  ends := fun _ _ h => by simp [HookManager.init] at h
  replacement h := by cases h
  orig h := by cases h
  bound := fun _ _ _ _ _ _ _ _ h => by cases h

/-! ## The calls -/

theorem HooksInv.withSymbol (h : HooksInv p s) (L : Handle) (a : Addr) (j : Nat) (name : String) :
    HooksInv p (s.withSymbol p L a j name) :=
  ⟨h.ends.withSymbol L a j name, h.replacement, h.orig⟩

theorem HooksInv.linked (h : HooksInv p s) (sid : SymId) (hv : v ≠ 0)
    (ho : ∀ M, ∀ r ∈ (p.image M).relocs, r.addr ≠ o) : HooksInv p (s.linked sid v o) := by
  refine ⟨h.ends.linked sid v o, fun {k hook} hk => ?_, fun {k hook} hk => ?_⟩
  · obtain ⟨-, rfl⟩ | ⟨hook₀, hk₀, -, -, heq, -⟩ := linked_hooks_cases hk
    · exact hv
    · rw [heq]
      exact h.replacement hk₀
  · obtain ⟨-, rfl⟩ | ⟨hook₀, hk₀, -, -, -, heq⟩ := linked_hooks_cases hk
    · exact ho
    · rw [heq]
      exact h.orig hk₀

theorem Bound.register (h : Bound p s) (hinv : SymbolsInv p s) (hl : M ∉ s.libs)
    (ha : s.infos a = none) (hok : CallOk p s (.addLibrary M addr)) :
    Bound p (s.register p M a) := by
  intro L b j sid M' b' i hL hsid hM' hi r hr hsup href
  have hLM : L ≠ M := by
    rintro rfl
    rw [register_libs, AList.lookup_insert, Option.some.injEq] at hL
    subst hL
    obtain ⟨l, hl'⟩ := hinv.noDangling.keys hsid
    obtain ⟨i, hi, -⟩ := hinv.info hl'
    cases ha.symm.trans hi
  rw [register_libs, AList.lookup_insert_ne hLM] at hL
  have hMM : M' ≠ M := by
    rintro rfl
    exact hok hl L b j sid hL hsid r hr hsup href
  rw [register_libs, AList.lookup_insert_ne hMM] at hM'
  rw [register_infos, Function.update_of_ne] at hi
  · exact h L b j sid M' b' i hL hsid hM' hi r hr hsup href
  · rintro rfl
    obtain ⟨i', hi', -⟩ := hinv.info hM'
    cases ha.symm.trans hi'

theorem Bound.withSymbol (h : Bound p s) (hinv : SymbolsInv p s)
    (hL : s.libs.lookup L = some a) (hok : SymbolOk p s L j name) :
    Bound p (s.withSymbol p L a j name) := by
  intro L' a' j' sid' M b i' hL' hsid' hM hi' r hr hsup href
  obtain ⟨i, hi, -⟩ := hinv.info hM
  obtain ⟨hbinds, hkeeps⟩ := withSymbol_info hinv.toRegistered hL hM hi hi' r
  obtain ⟨hnew, hfree⟩ := hok M b i hM hi r hr hsup
  rw [withSymbol_hookedSymbols_apply] at hsid'
  split at hsid'
  next heq =>
    obtain ⟨rfl, rfl⟩ := heq
    obtain rfl := hinv.addr_inj hL' hL
    cases hsid'
    exact ⟨(hnew href).1, hbinds (hnew href).2⟩
  · obtain ⟨hrec, hbound⟩ := h L' a' j' sid' M b i hL' hsid' hM hi r hr hsup href
    refine ⟨hrec, ?_⟩
    rw [hkeeps, hbound]
    intro hb
    rw [hfree hb] at hbound
    cases hbound

theorem Inv.createHook (h : Inv p s) (hok : HookOk p s L j v o) :
    ∃ s', step p s (.createHook L j v o) = some s' ∧ Inv p s' := by
  cases hL : s.libs.lookup L with
  | none => exact ⟨s, step_createHook_unregistered hL, h⟩
  | some a =>
    obtain ⟨hv, ho, hsym⟩ := hok a hL
    have hname : s.hookedSymbols a j = none → ∃ name, (p.image L).getSymbolName j = some name := by
      intro hsid
      obtain ⟨name, hname, -⟩ := hsym hsid
      exact ⟨name, hname⟩
    obtain ⟨sid, -, hs⟩ | ⟨name, hsid, hname, hs⟩ :=
      step_createHook_linked h.toRegistered h.ends hL hname v o
    · have hframe := linked_frame h.ends sid v o
      exact ⟨_, hs, h.toSymbolsInv.frame hframe, h.toHooksInv.linked sid hv ho,
        h.bound.frame hframe⟩
    · obtain ⟨name', hname', hok⟩ := hsym hsid
      obtain rfl := Option.some.inj (hname.symm.trans hname')
      have hhooks := h.toHooksInv.withSymbol L a j name
      have hframe := linked_frame hhooks.ends s.nextSymbol v o
      exact ⟨_, hs, (h.toSymbolsInv.withSymbol hL hsid name).frame hframe,
        hhooks.linked s.nextSymbol hv ho,
        (h.bound.withSymbol h.toSymbolsInv hL hok).frame hframe⟩

theorem Inv.ready (h : Inv p s) (order : List Handle) : Ready s (s.visits p order) := by
  refine ⟨h.ends, fun w hw => ?_, visits_nodup s order, fun {sid} w hw _ x hx => ?_⟩
  · obtain ⟨M, hM, -⟩ := mem_visits.mp hw
    obtain ⟨i, hi, -⟩ := h.info hM
    simp [hi]
  · obtain ⟨M, -, hr⟩ := mem_visits.mp hw
    obtain ⟨k, -, hk⟩ := Option.bind_eq_some_iff.mp hx
    obtain ⟨hook, hhook, horig⟩ := Option.map_eq_some_iff.mp hk
    exact h.orig hhook M w.2 ((recorded_sublist _).subset hr) horig.symm

theorem Inv.applied (h : Inv p s) (happ : Applied s s') : Inv p s' := by
  refine ⟨h.toSymbolsInv.frame happ.toFrame, ⟨happ.liveEnds h.ends, ?_, ?_⟩,
    h.bound.frame happ.toFrame⟩
  · rw [happ.hooks]
    exact h.replacement
  · rw [happ.hooks]
    exact h.orig

theorem Inv.step (h : Inv p s) (hok : CallOk p s c) : ∃ s', step p s c = some s' ∧ Inv p s' := by
  cases c with
  | addLibrary M addr =>
    refine ⟨_, rfl, ?_⟩
    rw [HookManager.addLibrary]
    split
    · exact h
    next hM =>
      have ha := h.infos_alloc addr
      exact ⟨h.toSymbolsInv.register hM ha, ⟨h.ends, h.replacement, h.orig⟩,
        h.bound.register h.toSymbolsInv hM ha hok⟩
  | removeLibrary M => exact hok.elim
  | createHook L j v o => exact h.createHook hok
  | createHookByName L name v o =>
    rw [step_createHookByName]
    split
    next hname => exact h.createHook (hok hname.2)
    · exact ⟨s, rfl, h⟩
  | deleteHook k => exact hok.elim
  | applyHooks order =>
    obtain ⟨s', hs', hpass⟩ := applyHooks_pass order (h.ready order)
    exact ⟨s', hs', h.applied hpass.toApplied⟩

/-- A pass covers what is bound. -/
theorem Inv.covered (h : Inv p s) (hpass : Pass s (s.visits p order) [] s') : Covered p s' := by
  intro L a j sid k hook hL hsid hk hhook M hM r hr hsup href
  rw [hpass.libs] at hL hM
  rw [hpass.hookedSymbols] at hsid
  rw [hpass.lastHook] at hk
  rw [hpass.hooks] at hhook
  obtain ⟨b, hb⟩ := Option.isSome_iff_exists.mp (AList.lookup_isSome.mpr hM)
  obtain ⟨i, hi, -⟩ := h.info hb
  obtain ⟨hrec, hbound⟩ := h.bound L a j sid M b i hL hsid hb hi r hr hsup href
  exact hpass.done (b, r) (mem_visits.mpr ⟨M, hb, hrec⟩) (by simp) ⟨i, hi, hbound, hsup⟩
    (redirection_of_lastHook hk hhook (h.replacement hhook)) (h.replacement hhook)

end Coverage

/-- **Coverage**: if no call loses a relocation, then `applyHooks` redirects every relocation that
refers to a hooked symbol to the last hook. -/
theorem covered_of_callOk {p : Process} {mem : Addr → Nat} {calls : List Call}
    (hok : Runs.Meets (step p) (Coverage.CallOk p) (init mem) calls) (order : List Handle) :
    ∃ s, Runs.run (step p) (init mem) (calls ++ [.applyHooks order]) = some s ∧ Covered p s := by
  obtain ⟨s, hs, hinv⟩ := Runs.run_inv (fun _ _ h hok => Coverage.Inv.step h hok)
    (Coverage.Inv.init p mem) hok
  obtain ⟨s', hs', hpass⟩ := applyHooks_pass order (hinv.ready order)
  refine ⟨s', ?_, hinv.covered hpass⟩
  rw [Runs.run_append, hs]
  exact (Option.bind_some ..).trans (by rw [Runs.run_cons, step, hs']; rfl)

/-- The hooks of `foo` reach a library that defines `foo` itself. -/
def hookDefined : List Call :=
  [.addLibrary 1 10, .addLibrary 3 30, .createHook 1 1 500 200, .createHook 1 1 600 208]

theorem fooLibraries_addr (M : Handle) : ∀ r ∈ (fooLibraries.image M).relocs, r.addr < 200 := by
  simp only [fooLibraries]
  split <;> simp [Image.relocs]

theorem covered_hookDefined :
    ∃ s, Runs.run (step fooLibraries) (init fun _ => 7) (hookDefined ++ [.applyHooks [3, 1]]) =
      some s ∧ Covered fooLibraries s := by
  have hslot : ∀ o, 200 ≤ o → ∀ M, ∀ r ∈ (fooLibraries.image M).relocs, r.addr ≠ o :=
    fun o ho M r hr => Nat.ne_of_lt (Nat.lt_of_lt_of_le (fooLibraries_addr M r hr) ho)
  have hok : Runs.Meets (step fooLibraries) (Coverage.CallOk fooLibraries) (init fun _ => 7)
      hookDefined := by
    refine .cons ?_ rfl (.cons ?_ rfl (.cons ?_ rfl (.cons ?_ rfl trivial)))
    · intro _ L a j sid hL
      cases hL
    · intro _ L a j sid _ hsid
      cases hsid
    · intro a ha
      refine ⟨by decide, hslot 200 (Nat.le_refl _), fun _ => ⟨"foo", rfl, ?_⟩⟩
      intro M b i hM hi r hr hsup
      have hmem : M ∈ [3, 1] := AList.mem_keys.mp (AList.lookup_isSome.mp (by rw [hM]; rfl))
      rcases List.mem_pair.mp hmem with rfl | rfl
      · obtain rfl := List.mem_singleton.mp hr
        cases hM
        cases hi
        exact ⟨fun _ => ⟨by decide, .inr ⟨by decide, rfl⟩⟩, fun _ => rfl⟩
      · obtain rfl := List.mem_singleton.mp hr
        cases hM
        cases hi
        exact ⟨fun _ => ⟨by decide, .inl ⟨rfl, rfl⟩⟩, fun _ => rfl⟩
    · intro a ha
      refine ⟨by decide, hslot 208 (by decide), fun hnew => ?_⟩
      cases ha
      cases hnew
  exact covered_of_callOk hok [3, 1]

/-- A library that imports `foo` is not reached: it does not find a definition of it. -/
theorem not_covered_import :
    ∃ s, Runs.run (step fooLibraries) (init fun _ => 7)
      [.addLibrary 1 10, .addLibrary 2 20, .createHook 1 1 500 200, .applyHooks [1, 2]] = some s ∧
        ¬Covered fooLibraries s := by
  refine ⟨_, rfl, fun h => ?_⟩
  have hslot := h 1 10 1 0 0 _ rfl rfl rfl rfl 2 (by decide) ⟨.JUMP_SLOT, 1, 104⟩ (by decide) rfl
    (.inr ⟨by decide, "foo", rfl, rfl⟩)
  exact absurd hslot (by decide)

end McpeLauncher.Hook
