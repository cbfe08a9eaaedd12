import McpeLauncher.Hook.Redirection

/-!
# References to libraries

Nothing in the manager should refer to a library that has been removed. `removeLibrary` takes the
library out of the lists of dependents, but not out of `hookedSymbols`. If it had hooked symbols,
then their keys and their `lib` keep pointing to the freed `LibInfo`, and a library that gets the
same address later finds them. This is all that goes wrong: `CallOk` excludes it, and then no call
accesses a freed `LibInfo` either.
-/

namespace McpeLauncher.Hook
open HookManager

/-- Every `LibInfo` that is referred to belongs to a registered library. -/
structure NoDangling (s : HookManager) : Prop where
  keys : s.hookedSymbols a symbolIndex = some sid → ∃ h, s.libs.lookup h = some a
  symbols : sid < s.nextSymbol → ∃ h, s.libs.lookup h = some (s.symbols sid).lib
  dependents : a ∈ s.dependents d → ∃ h, s.libs.lookup h = some a

/-- Removing a library that has just been added restores `libs` and `dependents`. -/
def Restores (p : Process) (s : HookManager) : Prop :=
  ∀ h addr, h ∉ s.libs → ∃ s', (s.addLibrary p h addr).removeLibrary h = some s' ∧
    s'.libs = s.libs ∧ s'.dependents = s.dependents

/-- A library that is added now has no hooked symbols. -/
def NoInheritance (p : Process) (s : HookManager) : Prop :=
  ∀ h addr a, h ∉ s.libs → (s.addLibrary p h addr).libs.lookup h = some a →
    ∀ symbolIndex, (s.addLibrary p h addr).hookedSymbols a symbolIndex = none

/-- The call is one of `addLibrary`, `removeLibrary` of a library without hooked symbols,
`createHook` with an index of the symbol table and `applyHooks`. -/
def Libraries.CallOk (p : Process) (s : HookManager) : Call → Prop
  | .removeLibrary h => ∀ a, s.libs.lookup h = some a → ∀ symbolIndex,
      s.hookedSymbols a symbolIndex = none
  | .createHook lib symbolIndex _ _ => lib ∈ s.libs → symbolIndex < (p.image lib).symtab.length
  | .deleteHook _ => False
  | .addLibrary _ _ | .createHookByName _ _ _ _ | .applyHooks _ => True

/-- The symbols and the keys of `hookedSymbols` correspond, and the libraries are registered. -/
structure SymbolsInv (p : Process) (s : HookManager) : Prop extends Registered p s where
  key : s.hookedSymbols a symbolIndex = some sid →
    sid < s.nextSymbol ∧ (s.symbols sid).lib = a ∧ (s.symbols sid).symbolIndex = symbolIndex
  symbol : sid < s.nextSymbol →
    s.hookedSymbols (s.symbols sid).lib (s.symbols sid).symbolIndex = some sid
  lib : sid < s.nextSymbol → ∃ h, s.libs.lookup h = some (s.symbols sid).lib

namespace SymbolsInv

variable {p : Process} {s s' : HookManager}

theorem init (p : Process) (mem : Addr → Nat) : SymbolsInv p (HookManager.init mem) where
  toRegistered := .init p mem
  key h := by cases h
  symbol h := absurd h (Nat.not_lt_zero _)
  lib h := absurd h (Nat.not_lt_zero _)

theorem noDangling (h : SymbolsInv p s) : NoDangling s where
  keys hkey := by
    obtain ⟨hlt, rfl, -⟩ := h.key hkey
    exact h.lib hlt
  symbols := h.lib
  dependents hdep := by
    obtain ⟨i, hi, -⟩ := h.dependents.mp hdep
    exact ⟨_, h.live hi⟩

theorem frame (h : SymbolsInv p s) (hf : Frame s s') : SymbolsInv p s' := by
  refine ⟨h.toRegistered.frame hf, fun hkey => ?_, fun hlt => ?_, fun hlt => ?_⟩
  · rw [hf.hookedSymbols] at hkey
    rw [hf.nextSymbol, hf.lib, hf.symbolIndex]
    exact h.key hkey
  · rw [hf.nextSymbol] at hlt
    rw [hf.hookedSymbols, hf.lib, hf.symbolIndex]
    exact h.symbol hlt
  · rw [hf.nextSymbol] at hlt
    rw [hf.libs, hf.lib]
    exact h.lib hlt

theorem register (h : SymbolsInv p s) (hl : l ∉ s.libs) (ha : s.infos a = none) :
    SymbolsInv p (s.register p l a) := by
  refine ⟨h.toRegistered.register hl ha, h.key, h.symbol, fun hlt => ?_⟩
  obtain ⟨l', hl'⟩ := h.lib hlt
  refine ⟨l', ?_⟩
  rw [register_libs, AList.lookup_insert_ne]
  · exact hl'
  · rintro rfl
    exact hl (AList.lookup_isSome.mp (by simp [hl']))

theorem unregister (h : SymbolsInv p s) (hl : s.libs.lookup l = some a) (hi : s.infos a = some i)
    (hnone : ∀ symbolIndex, s.hookedSymbols a symbolIndex = none) :
    SymbolsInv p (s.unregister l a i.dependencies) := by
  refine ⟨h.toRegistered.unregister hl hi, h.key, h.symbol, fun {sid} hlt => ?_⟩
  obtain ⟨l', hl'⟩ := h.lib hlt
  refine ⟨l', ?_⟩
  rw [unregister_libs, AList.lookup_erase_ne]
  · exact hl'
  · rintro rfl
    have hsid := h.symbol hlt
    rw [← Option.some.inj (hl.symm.trans hl'), hnone] at hsid
    cases hsid

theorem withSymbol (h : SymbolsInv p s) (hl : s.libs.lookup l = some a)
    (hnew : s.hookedSymbols a j = none) (name : String) :
    SymbolsInv p (s.withSymbol p l a j name) := by
  have hold : ∀ {sid}, sid < s.nextSymbol → (s.withSymbol p l a j name).symbols sid =
      s.symbols sid := fun hlt => Function.update_of_ne (Nat.ne_of_lt hlt) ..
  have hsym : (s.withSymbol p l a j name).symbols s.nextSymbol = ⟨a, j, 0, none, none⟩ :=
    Function.update_self ..
  refine ⟨h.toRegistered.withSymbol .., fun {b j' sid} hkey => ?_, fun {sid} hlt => ?_,
    fun {sid} hlt => ?_⟩
  · rw [withSymbol_hookedSymbols_apply] at hkey
    split at hkey
    next hbj =>
      obtain ⟨rfl, rfl⟩ := hbj
      cases hkey
      rw [hsym]
      exact ⟨Nat.lt_succ_self _, rfl, rfl⟩
    · obtain ⟨hlt, hsid⟩ := h.key hkey
      rw [hold hlt]
      exact ⟨Nat.lt_succ_of_lt hlt, hsid⟩
  · rw [withSymbol_hookedSymbols_apply]
    rcases Nat.lt_succ_iff_lt_or_eq.mp hlt with hlt | rfl
    · rw [hold hlt, if_neg]
      · exact h.symbol hlt
      · rintro ⟨ha, hj⟩
        have hsid := h.symbol hlt
        rw [ha, hj, hnew] at hsid
        cases hsid
    · rw [hsym, if_pos ⟨rfl, rfl⟩]
  · rcases Nat.lt_succ_iff_lt_or_eq.mp hlt with hlt | rfl
    · rw [hold hlt]
      exact h.lib hlt
    · rw [hsym]
      exact ⟨l, hl⟩

theorem step (h : SymbolsInv p s) (hok : Libraries.CallOk p s c) (hs : step p s c = some s') :
    SymbolsInv p s' := by
  obtain ⟨s₁, hindex, hframe⟩ := step_index h.toRegistered hs
  refine SymbolsInv.frame ?_ hframe
  cases hindex with
  | same => exact h
  | register _ hl ha => exact h.register hl ha
  | unregister hc hl hi =>
    subst hc
    exact h.unregister hl hi (hok _ hl)
  | withSymbol hl hnew => exact h.withSymbol hl hnew _

theorem createHook_defined (h : SymbolsInv p s) (hends : LiveEnds s)
    (hj : l ∈ s.libs → j < (p.image l).symtab.length) (v : Nat) (o : Addr) :
    ∃ s', Hook.step p s (.createHook l j v o) = some s' ∧ LiveEnds s' := by
  cases hl : s.libs.lookup l with
  | none => exact ⟨s, step_createHook_unregistered hl, hends⟩
  | some a =>
    have hmem : l ∈ s.libs := AList.lookup_isSome.mp (by simp [hl])
    have hname : ∃ name, (p.image l).getSymbolName j = some name := by
      rw [Image.getSymbolName, List.getElem?_eq_getElem (hj hmem)]
      exact ⟨_, rfl⟩
    obtain ⟨sid, -, hs⟩ | ⟨name, -, -, hs⟩ :=
      step_createHook_linked h.toRegistered hends hl (fun _ => hname) v o
    · exact ⟨_, hs, hends.linked sid v o⟩
    · exact ⟨_, hs, (hends.withSymbol l a j name).linked s.nextSymbol v o⟩

/-- No call accesses a `LibInfo` that has been freed. -/
theorem step_defined (h : SymbolsInv p s) (hends : LiveEnds s) (hok : Libraries.CallOk p s c) :
    ∃ s', Hook.step p s c = some s' ∧ LiveEnds s' := by
  cases c with
  | addLibrary l addr =>
    refine ⟨_, rfl, ?_⟩
    rw [HookManager.addLibrary]
    split
    · exact hends
    · exact hends
  | removeLibrary l =>
    rw [Hook.step, HookManager.removeLibrary]
    split
    · exact ⟨s, rfl, hends⟩
    next a hl =>
      obtain ⟨i, hi, -⟩ := h.info hl
      rw [hi]
      exact ⟨s.unregister l a i.dependencies, rfl, hends⟩
  | createHook l j v o => exact h.createHook_defined hends hok v o
  | createHookByName l name v o =>
    rw [step_createHookByName]
    split
    next hname => exact h.createHook_defined hends (fun _ => Image.getSymbolIndex_lt hname.2) v o
    · exact ⟨s, rfl, hends⟩
  | deleteHook k => exact hok.elim
  | applyHooks order =>
    obtain ⟨s', hs', happ⟩ := hends.applyHooks h.toRegistered order
    exact ⟨s', hs', happ.liveEnds hends⟩

theorem alloc_hookedSymbols (h : SymbolsInv p s) (addr : Addr) (j : Nat) :
    s.hookedSymbols (s.alloc addr) j = none := by
  rw [Option.eq_none_iff_forall_ne_some]
  intro sid hsid
  exact alloc_notMem s addr (mem_addrs.mpr (h.noDangling.keys hsid))

theorem restores (h : SymbolsInv p s) : Restores p s := by
  intro l addr hl
  rw [HookManager.addLibrary, if_neg hl]
  refine ⟨(s.register p l (s.alloc addr)).unregister l (s.alloc addr) (p.image l).needed, ?_, ?_,
    ?_⟩
  · simp [HookManager.removeLibrary]
  · rw [unregister_libs, register_libs]
    apply AList.ext
    change List.kerase l (AList.insert l (s.alloc addr) s.libs).entries = s.libs.entries
    rw [AList.entries_insert_of_notMem hl]
    exact List.kerase_cons_eq rfl
  · funext d
    rw [unregister_dependents, eraseDependents_apply, register_dependents, pushDependents_apply]
    split
    · rw [List.filter_append, List.filter_replicate_of_neg (by simp), List.append_nil,
        List.filter_eq_self]
      intro b hb
      obtain ⟨i, hi, -⟩ := h.dependents.mp hb
      have hne : b ≠ s.alloc addr := by
        rintro rfl
        cases (h.infos_alloc addr).symm.trans hi
      simpa using hne
    next hd => rw [List.count_eq_zero_of_not_mem hd, List.replicate_zero, List.append_nil]

theorem noInheritance (h : SymbolsInv p s) : NoInheritance p s := by
  intro l addr a hl ha j
  rw [HookManager.addLibrary, if_neg hl] at ha ⊢
  rw [register_libs, AList.lookup_insert, Option.some.injEq] at ha
  subst ha
  exact h.alloc_hookedSymbols addr j

end SymbolsInv

/-- **No dangling references**: as long as no library with hooked symbols is removed, the calls are
defined, every `LibInfo` that the manager refers to belongs to a registered library, adding a
library and removing it again changes nothing, and a new library does not inherit hooks. -/
theorem noDangling_of_callOk {p : Process} {mem : Addr → Nat} {calls : List Call}
    (hok : Runs.Meets (step p) (Libraries.CallOk p) (init mem) calls) :
    ∃ s, Runs.run (step p) (init mem) calls = some s ∧
      NoDangling s ∧ Restores p s ∧ NoInheritance p s := by
  have hstep : ∀ s c, SymbolsInv p s ∧ LiveEnds s → Libraries.CallOk p s c →
      ∃ s', step p s c = some s' ∧ SymbolsInv p s' ∧ LiveEnds s' := by
    rintro s c ⟨hinv, hends⟩ hok
    obtain ⟨s', hs', hends'⟩ := hinv.step_defined hends hok
    exact ⟨s', hs', hinv.step hok hs', hends'⟩
  obtain ⟨s, hs, hinv, -⟩ := Runs.run_inv hstep
    ⟨.init p mem, fun _ _ h => by simp [HookManager.init] at h⟩ hok
  exact ⟨s, hs, hinv.noDangling, hinv.restores, hinv.noInheritance⟩

/-- A library is removed while another one has a hook. -/
def removeUnhooked : List Call :=
  [.addLibrary 1 10, .addLibrary 2 20, .createHook 1 1 500 200, .removeLibrary 2]

theorem noDangling_removeUnhooked :
    ∃ s, Runs.run (step fooLibraries) (init fun _ => 0) removeUnhooked = some s ∧
      NoDangling s ∧ Restores fooLibraries s ∧ NoInheritance fooLibraries s := by
  have hok : Runs.Meets (step fooLibraries) (Libraries.CallOk fooLibraries) (init fun _ => 0)
      removeUnhooked := by
    refine .cons trivial rfl (.cons trivial rfl (.cons ?_ rfl (.cons ?_ rfl trivial)))
    · intro _
      decide
    · intro a ha j
      cases ha
      rfl
  exact noDangling_of_callOk hok

/-- The calls that leave a dangling library: it has a hook when it is removed. -/
def removeHooked : List Call := [.addLibrary 1 10, .createHook 1 1 500 200, .removeLibrary 1]

/-- The key of the removed library is still there, and another library that gets its address
inherits the hook. -/
theorem dangling_removeHooked :
    ∃ s, Runs.run (step fooLibraries) (init fun _ => 0) removeHooked = some s ∧
      ¬NoDangling s ∧ ¬NoInheritance fooLibraries s := by
  refine ⟨_, rfl, fun h => ?_, fun h => ?_⟩
  · obtain ⟨l, hl⟩ : ∃ l, AList.lookup l _ = some 10 := @NoDangling.keys _ h 10 1 0 rfl
    cases hl
  · cases h 2 10 10 (by decide) rfl 1

end McpeLauncher.Hook
