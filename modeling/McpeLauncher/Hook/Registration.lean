import McpeLauncher.Hook.HookManager

/-!
# The registered libraries

What the operations do to the indexes of libraries and symbols. The registered libraries, their
`LibInfo` objects and the lists of dependents always agree (`Registered`). A new symbol is entered
into the map of its library and, under the index that `getSymbolIndex` gives there, into the maps of
its dependents. The operations on hooks leave the indexes as they are (`Frame`).
-/

namespace McpeLauncher.Hook
open Function (update)

/-- Enter a symbol into the map of a library, at the indexes that meet a condition. -/
@[simps]
def LibInfo.bind (i : LibInfo) (hook : SymId) (c : Nat → Bool) : LibInfo :=
  { i with hookedSymbols := fun j => if c j then some hook else i.hookedSymbols j }

namespace HookManager

variable {p : Process} {s s' : HookManager}

/-! ## Dependents -/

@[simp] theorem pushDependents_apply (a : Addr) (deps : List Handle) (m : Handle → List Addr)
    (d : Handle) : pushDependents a deps m d = m d ++ List.replicate (deps.count d) a := by
  induction deps generalizing m with
  | nil => simp [pushDependents]
  | cons dep deps ih =>
    change pushDependents a deps (update m dep (m dep ++ [a])) d = _
    rw [ih]
    by_cases h : d = dep
    · subst h
      simp [List.replicate_succ]
    · rw [Function.update_of_ne h, List.count_cons_of_ne (Ne.symm h)]

@[simp] theorem eraseDependents_apply (a : Addr) (deps : List Handle) (m : Handle → List Addr)
    (d : Handle) :
    eraseDependents a deps m d = if d ∈ deps then (m d).filter (· ≠ a) else m d := by
  induction deps generalizing m with
  | nil => simp [eraseDependents]
  | cons dep deps ih =>
    change eraseDependents a deps (update m dep ((m dep).filter (· ≠ a))) d = _
    rw [ih]
    by_cases h : d = dep
    · subst h
      simp
    · rw [Function.update_of_ne h]
      simp [h]

/-! ## Addresses -/

theorem mem_addrs : a ∈ s.addrs ↔ ∃ h, s.libs.lookup h = some a := by
  simp only [addrs, List.mem_map, Sigma.exists, exists_eq_right]
  exact exists_congr fun h => AList.mem_lookup_iff.symm

theorem le_foldr_max {l : List Nat} (h : a ∈ l) : a ≤ l.foldr Nat.max 0 := by
  induction l with
  | nil => cases h
  | cons b l ih =>
    rcases List.mem_cons.mp h with rfl | h
    · exact Nat.le_max_left ..
    · exact Nat.le_trans (ih h) (Nat.le_max_right ..)

theorem alloc_notMem (s : HookManager) (a : Addr) : s.alloc a ∉ s.addrs := by
  rw [alloc]
  split
  · intro h
    have := le_foldr_max h
    omega
  · assumption

/-! ## The invariant of the libraries -/

/-- The registered libraries have their `LibInfo` objects, no other is in use, and the lists of
dependents have exactly those that need a library. -/
structure Registered (p : Process) (s : HookManager) : Prop where
  info : s.libs.lookup h = some a → ∃ i, s.infos a = some i ∧ i.handle = h
  live : s.infos a = some i → s.libs.lookup i.handle = some a
  dependencies : s.infos a = some i → i.dependencies = (p.image i.handle).needed
  dependents : a ∈ s.dependents d ↔ ∃ i, s.infos a = some i ∧ d ∈ i.dependencies

theorem Registered.init (p : Process) (mem : Addr → Nat) : Registered p (init mem) where
  info h := by simp [HookManager.init] at h
  live h := by cases h
  dependencies h := by cases h
  dependents := by simp [HookManager.init]

theorem Registered.infos_alloc (h : Registered p s) (a : Addr) : s.infos (s.alloc a) = none := by
  rw [Option.eq_none_iff_forall_ne_some]
  exact fun i hi => alloc_notMem s a (mem_addrs.mpr ⟨_, h.live hi⟩)

theorem Registered.addr_inj (h : Registered p s) (h₁ : s.libs.lookup l = some a)
    (h₂ : s.libs.lookup l' = some a) : l = l' := by
  obtain ⟨i, hi, rfl⟩ := h.info h₁
  obtain ⟨i', hi', rfl⟩ := h.info h₂
  rw [Option.some.inj (hi.symm.trans hi')]

theorem Registered.register (h : Registered p s) (hl : l ∉ s.libs) (ha : s.infos a = none) :
    Registered p (s.register p l a) := by
  refine ⟨fun {l' b} hl' => ?_, fun {b i} hi => ?_, fun {b i} hi => ?_, fun {d b} => ?_⟩
  · by_cases hll : l' = l
    · subst hll
      rw [register_libs, AList.lookup_insert, Option.some.injEq] at hl'
      subst hl'
      exact ⟨_, Function.update_self .., rfl⟩
    · rw [register_libs, AList.lookup_insert_ne hll] at hl'
      obtain ⟨i, hi, hh⟩ := h.info hl'
      refine ⟨i, ?_, hh⟩
      rw [register_infos, Function.update_of_ne, hi]
      rintro rfl
      simp [ha] at hi
  · rw [register_libs]
    rw [register_infos, Function.update_apply] at hi
    split at hi
    next hb =>
      cases hi
      rw [hb, AList.lookup_insert]
    next hb =>
      have hlive := h.live hi
      rw [AList.lookup_insert_ne, hlive]
      rintro rfl
      exact hl (AList.lookup_isSome.mp (by simp [hlive]))
  · rw [register_infos, Function.update_apply] at hi
    split at hi
    · cases hi
      rfl
    · exact h.dependencies hi
  · rw [register_dependents, pushDependents_apply, List.mem_append, h.dependents,
      List.mem_replicate, register_infos]
    by_cases hb : b = a
    · subst hb
      simp [ha, List.count_eq_zero]
    · simp [hb]

theorem Registered.unregister (h : Registered p s) (hl : s.libs.lookup l = some a)
    (hi : s.infos a = some i) : Registered p (s.unregister l a i.dependencies) := by
  have hhandle : i.handle = l := h.addr_inj (h.live hi) hl
  refine ⟨fun {l' b} hl' => ?_, fun {b i'} hi' => ?_, fun {b i'} hi' => ?_, fun {d b} => ?_⟩
  · rw [unregister_libs] at hl'
    have hll : l' ≠ l := by
      rintro rfl
      simp at hl'
    rw [AList.lookup_erase_ne hll] at hl'
    obtain ⟨i', hi', rfl⟩ := h.info hl'
    refine ⟨i', ?_, rfl⟩
    rw [unregister_infos, Function.update_of_ne, hi']
    rintro rfl
    exact hll (h.addr_inj hl' hl)
  · rw [unregister_infos, Function.update_apply] at hi'
    split at hi'
    · cases hi'
    next hb =>
      rw [unregister_libs, AList.lookup_erase_ne, h.live hi']
      intro hh
      have := h.live hi'
      rw [hh, hl, Option.some.injEq] at this
      exact hb this.symm
  · rw [unregister_infos, Function.update_apply] at hi'
    split at hi'
    · cases hi'
    · exact h.dependencies hi'
  · rw [unregister_dependents, eraseDependents_apply, unregister_infos]
    by_cases hb : b = a
    · subst hb
      split
      · simp
      next hd =>
        rw [h.dependents, Function.update_self]
        simp [hi, hd]
    · rw [Function.update_of_ne hb, ← h.dependents]
      split <;> simp [hb]

/-! ## New symbols -/

theorem run_setHookByName (name : String) (hook : SymId) (deps : List Addr)
    (h : ∀ b ∈ deps, s.infos b ≠ none) :
    Runs.run (setHookByName p name hook) s deps = some { s with
      infos := fun b => (s.infos b).map fun i => i.bind hook fun j =>
        b ∈ deps ∧ j = (p.image i.handle).getSymbolIndex name } := by
  induction deps generalizing s with
  | nil => simp [LibInfo.bind]
  | cons a deps ih =>
    obtain ⟨i, hi⟩ := Option.ne_none_iff_exists'.mp (h a (.head _))
    simp only [Runs.run_cons, setHookByName, setHook, hi, Option.bind_eq_bind, Option.bind_some]
    rw [ih fun b hb => ?_]
    · congr 2
      funext b
      by_cases hb : b = a
      · subst hb
        simp only [Function.update_self, hi, Option.map_some, LibInfo.bind]
        congr 2
        funext j
        by_cases hj : j = (p.image i.handle).getSymbolIndex name <;> simp [hj]
      · simp [hb]
    · by_cases hba : b = a
      · simp [hba]
      · simpa [hba] using h b (.tail _ hb)

/-- A new symbol, and the entries for it. -/
@[simps]
def withSymbol (p : Process) (s : HookManager) (lib : Handle) (a : Addr) (symbolIndex : Nat)
    (name : String) : HookManager :=
  { s with
    hookedSymbols := update s.hookedSymbols a
      (update (s.hookedSymbols a) symbolIndex (some s.nextSymbol))
    symbols := update s.symbols s.nextSymbol { lib := a, symbolIndex := symbolIndex }
    nextSymbol := s.nextSymbol + 1
    infos := fun b => (s.infos b).map fun i => i.bind s.nextSymbol fun j =>
      (b = a ∧ j = symbolIndex) ∨
        (b ∈ s.dependents lib ∧ j = (p.image i.handle).getSymbolIndex name) }

theorem withSymbol_hookedSymbols_apply (lib : Handle) (a : Addr) (j : Nat) (name : String)
    (b : Addr) (j' : Nat) : (s.withSymbol p lib a j name).hookedSymbols b j' =
      if b = a ∧ j' = j then some s.nextSymbol else s.hookedSymbols b j' := by
  rw [withSymbol_hookedSymbols]
  by_cases hb : b = a
  · subst hb
    simp [Function.update_apply]
  · simp [hb]

/-- The symbol `j` of `L`, when it is hooked for the first time, is entered for the relocation. -/
def Binds (p : Process) (L : Handle) (j : Nat) (name : String) (M : Handle) (r : Reloc) : Prop :=
  (M = L ∧ r.sym = j) ∨ (L ∈ (p.image M).needed ∧ r.sym = (p.image M).getSymbolIndex name)

/-- Which relocations a new symbol is bound to. -/
theorem withSymbol_info (hreg : Registered p s) (hL : s.libs.lookup L = some a)
    (hM : s.libs.lookup M = some b) (hi : s.infos b = some i)
    (hi' : (s.withSymbol p L a j name).infos b = some i') (r : Reloc) :
    (Binds p L j name M r → i'.hookedSymbols r.sym = some s.nextSymbol) ∧
      (¬Binds p L j name M r → i'.hookedSymbols r.sym = i.hookedSymbols r.sym) := by
  have hhandle : i.handle = M := hreg.addr_inj (hreg.live hi) hM
  have hown : b = a ↔ M = L := by
    constructor
    · rintro rfl
      exact hreg.addr_inj hM hL
    · rintro rfl
      exact Option.some.inj (hM.symm.trans hL)
  have hdep : b ∈ s.dependents L ↔ L ∈ (p.image M).needed := by
    rw [hreg.dependents, hi, ← hhandle, ← hreg.dependencies hi]
    simp
  rw [withSymbol_infos, hi, Option.map_some, Option.some.injEq] at hi'
  subst hi'
  simp only [LibInfo.bind_hookedSymbols, hhandle, hown, hdep, decide_eq_true_eq]
  exact ⟨fun hbinds => if_pos hbinds, fun hbinds => if_neg hbinds⟩

theorem createHookSymbol_eq (h : Registered p s) (hl : s.libs.lookup lib = some a)
    (hname : (p.image lib).getSymbolName symbolIndex = some name) :
    s.createHookSymbol p lib a symbolIndex =
      some (s.nextSymbol, s.withSymbol p lib a symbolIndex name) := by
  obtain ⟨i, hi, -⟩ := h.info hl
  simp only [createHookSymbol, setHook, hi, hname, Option.bind_eq_bind, Option.bind_some]
  rw [run_setHookByName _ _ _ fun b hb => ?_]
  · simp only [Option.bind_some, withSymbol]
    congr 3
    funext b
    by_cases hb : b = a
    · subst hb
      simp only [Function.update_self, hi, Option.map_some, LibInfo.bind, true_and]
      congr 2
      funext j
      by_cases hj : j = symbolIndex <;> simp [hj]
    · simp [hb]
  · obtain ⟨i', hi', -⟩ := h.dependents.mp hb
    by_cases hba : b = a
    · simp [hba]
    · simp [hba, hi']

/-! ## The calls of `createHook` -/

theorem step_createHook_unregistered (hl : s.libs.lookup lib = none) :
    step p s (.createHook lib symbolIndex replacement orig) = some s := by
  simp only [step, createHook, getOrCreateHookSymbol, hl]
  rfl

theorem step_createHook_hooked (hl : s.libs.lookup lib = some a)
    (hid : s.hookedSymbols a symbolIndex = some sid) :
    step p s (.createHook lib symbolIndex replacement orig) =
      (s.linkHook sid replacement orig).map Prod.snd := by
  simp only [step, createHook, getOrCreateHookSymbol, hl, hid, Option.bind_eq_bind,
    Option.bind_some, Option.map_map]
  rfl

theorem step_createHook_new (h : Registered p s) (hl : s.libs.lookup lib = some a)
    (hid : s.hookedSymbols a symbolIndex = none)
    (hname : (p.image lib).getSymbolName symbolIndex = some name) :
    step p s (.createHook lib symbolIndex replacement orig) =
      ((s.withSymbol p lib a symbolIndex name).linkHook s.nextSymbol replacement orig).map
        Prod.snd := by
  simp only [step, createHook, getOrCreateHookSymbol, hl, hid, createHookSymbol_eq h hl hname,
    Option.bind_eq_bind, Option.bind_some, Option.map_some, Option.map_map]
  rfl

theorem step_createHook_noName (h : Registered p s) (hl : s.libs.lookup lib = some a)
    (hid : s.hookedSymbols a symbolIndex = none)
    (hname : (p.image lib).getSymbolName symbolIndex = none) :
    step p s (.createHook lib symbolIndex replacement orig) = none := by
  obtain ⟨i, hi, -⟩ := h.info hl
  simp [step, createHook, getOrCreateHookSymbol, createHookSymbol, setHook, hl, hid, hi, hname]

theorem step_createHookByName (s : HookManager) :
    step p s (.createHookByName lib name replacement orig) =
      if lib ∈ s.libs ∧ (p.image lib).getSymbolIndex name ≠ Image.noIndex then
        step p s (.createHook lib ((p.image lib).getSymbolIndex name) replacement orig)
      else some s := by
  simp only [step, createHookByName]
  by_cases hl : lib ∈ s.libs
  · by_cases hj : (p.image lib).getSymbolIndex name = Image.noIndex
    · simp [hl, hj, afterCreate]
    · simp [hl, hj]
  · simp [hl, afterCreate]

/-- **What `createHook` does**: nothing if the library is not registered, else it links a hook to
the symbol, which may be a new one. -/
theorem createHook_cases (h : Registered p s)
    (hs : step p s (.createHook lib symbolIndex replacement orig) = some s') :
    s' = s ∨ ∃ a k, s.libs.lookup lib = some a ∧
      ((∃ sid, s.hookedSymbols a symbolIndex = some sid ∧
          s.linkHook sid replacement orig = some (k, s')) ∨
        ∃ name, s.hookedSymbols a symbolIndex = none ∧
          (s.withSymbol p lib a symbolIndex name).linkHook s.nextSymbol replacement orig =
            some (k, s')) := by
  cases hl : s.libs.lookup lib with
  | none =>
    rw [step_createHook_unregistered hl, Option.some.injEq] at hs
    exact .inl hs.symm
  | some a =>
    refine .inr ?_
    cases hid : s.hookedSymbols a symbolIndex with
    | some sid =>
      rw [step_createHook_hooked hl hid, Option.map_eq_some_iff] at hs
      obtain ⟨⟨k, _⟩, hlink, rfl⟩ := hs
      exact ⟨a, k, rfl, .inl ⟨sid, hid, hlink⟩⟩
    | none =>
      cases hname : (p.image lib).getSymbolName symbolIndex with
      | none => simp [step_createHook_noName h hl hid hname] at hs
      | some name =>
        rw [step_createHook_new h hl hid hname, Option.map_eq_some_iff] at hs
        obtain ⟨⟨k, _⟩, hlink, rfl⟩ := hs
        exact ⟨a, k, rfl, .inr ⟨name, hid, hlink⟩⟩

/-! ## Linking a hook -/

/-- The first and the last hook of each symbol are live. -/
def LiveEnds (s : HookManager) : Prop :=
  ∀ sid k, (s.symbols sid).firstHook = some k ∨ (s.symbols sid).lastHook = some k →
    s.hooks k ≠ none

/-- The parent of the next hook of a symbol. -/
def nextParent (s : HookManager) (sid : SymId) : Option HookId :=
  (s.symbols sid).firstHook.bind fun _ => (s.symbols sid).lastHook

/-- The state with a new hook of the symbol. -/
@[simps]
def linked (s : HookManager) (sid : SymId) (replacement : Nat) (orig : Addr) : HookManager :=
  { s with
    symbols := update s.symbols sid { s.symbols sid with
      firstHook := (s.symbols sid).firstHook.or (some s.nextHook)
      lastHook := some s.nextHook }
    hooks := fun k =>
      if k = s.nextHook then some ⟨sid, s.nextParent sid, none, replacement, orig⟩
      else if s.nextParent sid = some k then
        (s.hooks k).map fun parent => { parent with child := some s.nextHook }
      else s.hooks k
    nextHook := s.nextHook + 1
    mem := ((s.nextParent sid).bind s.hooks).elim s.mem fun parent =>
      update s.mem orig parent.replacement }

theorem linkHook_eq (h : LiveEnds s) (sid : SymId) (replacement : Nat) (orig : Addr) :
    s.linkHook sid replacement orig = some (s.nextHook, s.linked sid replacement orig) := by
  rw [linkHook]
  split
  next hfirst =>
    simp only [linked, nextParent, hfirst, Option.bind_none, Option.none_or, Option.elim_none]
    congr 3
    funext k
    by_cases hk : k = s.nextHook <;> simp [hk]
  next hfirst hlast =>
    simp only [linked, nextParent, hfirst, hlast, Option.bind_some, Option.bind_none,
      Option.some_or, Option.elim_none]
    congr 3
    funext k
    by_cases hk : k = s.nextHook <;> simp [hk]
  next k hfirst hlast =>
    obtain ⟨parent, hparent⟩ := Option.ne_none_iff_exists'.mp (h sid k (.inr hlast))
    simp only [linked, nextParent, hfirst, hlast, hparent, Option.bind_eq_bind, Option.bind_some,
      Option.some_or, Option.elim_some]
    congr 3
    funext k'
    by_cases hk : k' = s.nextHook
    · simp [hk]
    · by_cases hkk : k' = k
      · subst hkk
        simp [hk, hparent]
      · simp [hk, hkk, Ne.symm hkk]

theorem linked_hooks_nextHook (s : HookManager) (sid : SymId) (replacement : Nat) (orig : Addr) :
    (s.linked sid replacement orig).hooks s.nextHook =
      some ⟨sid, s.nextParent sid, none, replacement, orig⟩ := if_pos rfl

theorem linked_hooks_of_ne (hk : k ≠ s.nextHook) :
    (s.linked sid replacement orig).hooks k = (s.hooks k).map fun hook =>
      { hook with child := if s.nextParent sid = some k then some s.nextHook else hook.child } := by
  rw [linked_hooks, if_neg hk]
  split
  · rfl
  · cases s.hooks k <;> rfl

theorem linked_hooks_cases (h : (s.linked sid v o).hooks k = some hook) :
    (k = s.nextHook ∧ hook = ⟨sid, s.nextParent sid, none, v, o⟩) ∨
      ∃ hook₀, s.hooks k = some hook₀ ∧ hook.symbol = hook₀.symbol ∧ hook.parent = hook₀.parent ∧
        hook.replacement = hook₀.replacement ∧ hook.orig = hook₀.orig := by
  by_cases hk : k = s.nextHook
  · subst hk
    rw [linked_hooks_nextHook, Option.some.injEq] at h
    exact .inl ⟨rfl, h.symm⟩
  · rw [linked_hooks_of_ne hk] at h
    obtain ⟨hook₀, hhook₀, rfl⟩ := Option.map_eq_some_iff.mp h
    exact .inr ⟨hook₀, hhook₀, rfl, rfl, rfl, rfl⟩

theorem LiveEnds.withSymbol (h : LiveEnds s) (lib : Handle) (a : Addr) (symbolIndex : Nat)
    (name : String) : LiveEnds (s.withSymbol p lib a symbolIndex name) := by
  intro sid k hk
  by_cases hsid : sid = s.nextSymbol
  · simp [hsid] at hk
  · rw [withSymbol_symbols, Function.update_of_ne hsid] at hk
    exact h sid k hk

theorem LiveEnds.linked (h : LiveEnds s) (sid : SymId) (replacement : Nat) (orig : Addr) :
    LiveEnds (s.linked sid replacement orig) := by
  intro x k hk
  by_cases hnew : k = s.nextHook
  · subst hnew
    simp
  · have hold : (s.symbols x).firstHook = some k ∨ (s.symbols x).lastHook = some k := by
      by_cases hx : x = sid
      · subst hx
        rw [linked_symbols, Function.update_self, Option.or_eq_some_iff, Option.some.injEq] at hk
        rcases hk with (hk | ⟨-, hk⟩) | hk
        · exact .inl hk
        · exact absurd hk.symm hnew
        · exact absurd hk.symm hnew
      · rwa [linked_symbols, Function.update_of_ne hx] at hk
    rw [linked_hooks_of_ne hnew]
    simpa using h x k hold

/-- **`createHook` is defined** for a registered library and an index of its symbol table: it links
a hook to the symbol, which may be a new one. -/
theorem step_createHook_linked (h : Registered p s) (hends : LiveEnds s)
    (hl : s.libs.lookup lib = some a)
    (hname : s.hookedSymbols a symbolIndex = none →
      ∃ name, (p.image lib).getSymbolName symbolIndex = some name) (replacement : Nat)
    (orig : Addr) :
    (∃ sid, s.hookedSymbols a symbolIndex = some sid ∧
        step p s (.createHook lib symbolIndex replacement orig) =
          some (s.linked sid replacement orig)) ∨
      ∃ name, s.hookedSymbols a symbolIndex = none ∧
        (p.image lib).getSymbolName symbolIndex = some name ∧
        step p s (.createHook lib symbolIndex replacement orig) =
          some ((s.withSymbol p lib a symbolIndex name).linked s.nextSymbol replacement orig) := by
  cases hid : s.hookedSymbols a symbolIndex with
  | some sid =>
    refine .inl ⟨sid, rfl, ?_⟩
    rw [step_createHook_hooked hl hid, linkHook_eq hends]
    rfl
  | none =>
    obtain ⟨name, hname⟩ := hname hid
    refine .inr ⟨name, rfl, hname, ?_⟩
    rw [step_createHook_new h hl hid hname, linkHook_eq (hends.withSymbol lib a symbolIndex name)]
    rfl

/-! ## The frame of the operations on hooks -/

/-- What linking, deleting and applying hooks leaves as it is. -/
structure Frame (s s' : HookManager) : Prop where
  libs : s'.libs = s.libs
  dependents : s'.dependents = s.dependents
  hookedSymbols : s'.hookedSymbols = s.hookedSymbols
  infos : s'.infos = s.infos
  nextSymbol : s'.nextSymbol = s.nextSymbol
  lib : ∀ sid, (s'.symbols sid).lib = (s.symbols sid).lib
  symbolIndex : ∀ sid, (s'.symbols sid).symbolIndex = (s.symbols sid).symbolIndex

theorem Frame.refl (s : HookManager) : Frame s s :=
  ⟨rfl, rfl, rfl, rfl, rfl, fun _ => rfl, fun _ => rfl⟩

theorem Frame.trans (h : Frame s s') (h' : Frame s' s'') : Frame s s'' :=
  ⟨h'.libs.trans h.libs, h'.dependents.trans h.dependents, h'.hookedSymbols.trans h.hookedSymbols,
    h'.infos.trans h.infos, h'.nextSymbol.trans h.nextSymbol,
    fun sid => (h'.lib sid).trans (h.lib sid), fun sid => (h'.symbolIndex sid).trans (h.symbolIndex sid)⟩

/-- A state that differs in the memory, the hooks and the data of one symbol. -/
theorem Frame.update (s : HookManager) (sid : SymId) (original : Nat)
    (firstHook lastHook : Option HookId) (hooks : HookId → Option HookInstance)
    (nextHook : HookId) (mem : Addr → Nat) :
    Frame s { s with
      symbols := update s.symbols sid { s.symbols sid with original, firstHook, lastHook }
      hooks, nextHook, mem } := by
  refine ⟨rfl, rfl, rfl, rfl, rfl, fun x => ?_, fun x => ?_⟩
  · by_cases h : x = sid <;> simp [h]
  · by_cases h : x = sid <;> simp [h]

theorem linkHook_frame (h : s.linkHook sid replacement orig = some (k, s')) : Frame s s' := by
  rw [linkHook] at h
  split at h
  · cases h
    exact .update s sid _ _ _ _ _ _
  · cases h
    exact .update s sid _ _ _ _ _ _
  · obtain ⟨parent, -, h⟩ := Option.bind_eq_some_iff.mp h
    cases h
    exact .update s sid _ _ _ _ _ _

theorem linked_frame (h : LiveEnds s) (sid : SymId) (replacement : Nat) (orig : Addr) :
    Frame s (s.linked sid replacement orig) :=
  linkHook_frame (linkHook_eq h sid replacement orig)

theorem relinkChild_frame (h : s.relinkChild hook = some s') :
    Frame s s' ∧ s'.symbols = s.symbols := by
  rw [relinkChild] at h
  split at h
  · cases h
    exact ⟨.refl s, rfl⟩
  · obtain ⟨child, -, h⟩ := Option.bind_eq_some_iff.mp h
    obtain ⟨value, -, h⟩ := Option.bind_eq_some_iff.mp h
    cases h
    exact ⟨⟨rfl, rfl, rfl, rfl, rfl, fun _ => rfl, fun _ => rfl⟩, rfl⟩

theorem relinkParent_frame (h : s.relinkParent hook = some s') :
    Frame s s' ∧ s'.symbols = s.symbols := by
  rw [relinkParent] at h
  split at h
  · cases h
    exact ⟨.refl s, rfl⟩
  · obtain ⟨parent, -, h⟩ := Option.bind_eq_some_iff.mp h
    cases h
    exact ⟨⟨rfl, rfl, rfl, rfl, rfl, fun _ => rfl, fun _ => rfl⟩, rfl⟩

theorem deleteHook_frame (h : s.deleteHook k = some s') : Frame s s' := by
  obtain ⟨hook, -, h⟩ := Option.bind_eq_some_iff.mp h
  obtain ⟨s₁, h₁, h⟩ := Option.bind_eq_some_iff.mp h
  obtain ⟨s₂, h₂, h⟩ := Option.bind_eq_some_iff.mp h
  cases h
  apply ((relinkChild_frame h₁).1.trans (relinkParent_frame h₂).1).trans
  exact .update s₂ hook.symbol _ _ _ _ _ _

theorem recordOriginal_frame (h : s.recordOriginal sid original = some s') : Frame s s' := by
  simp only [recordOriginal] at h
  split at h
  · split at h
    · cases h
      exact .update s sid _ _ _ _ _ _
    · obtain ⟨hook, -, h⟩ := Option.bind_eq_some_iff.mp h
      cases h
      exact .update s sid _ _ _ _ _ _
  · cases h
    exact .refl s

theorem applyReloc_frame (h : applyReloc a s r = some s') : Frame s s' := by
  obtain ⟨info, -, h⟩ := Option.bind_eq_some_iff.mp h
  split at h
  · cases h
    exact .refl s
  · obtain ⟨replacement, -, h⟩ := Option.bind_eq_some_iff.mp h
    split at h
    · cases h
      exact .refl s
    · have hmem := recordOriginal_frame h
      exact ⟨hmem.libs, hmem.dependents, hmem.hookedSymbols, hmem.infos, hmem.nextSymbol, hmem.lib,
        hmem.symbolIndex⟩

theorem applyLibHooks_frame (h : s.applyLibHooks p l = some s') : Frame s s' := by
  have hrun : ∀ {s s' : HookManager} {a rs}, Runs.run (applyReloc a) s rs = some s' →
      Frame s s' := fun {s _ _ _} h => Runs.inv_of_run (I := Frame s)
    (fun _ _ _ h h' => h.trans (applyReloc_frame h')) (.refl s) h
  rw [applyLibHooks] at h
  split at h
  · cases h
    exact .refl s
  · obtain ⟨s₁, h₁, h⟩ := Option.bind_eq_some_iff.mp h
    exact (hrun h₁).trans (hrun h)

theorem applyHooks_frame (h : s.applyHooks p order = some s') : Frame s s' :=
  Runs.inv_of_run (I := Frame s) (fun _ _ _ h h' => h.trans (applyLibHooks_frame h')) (.refl s) h

theorem Registered.frame (h : Registered p s) (hf : Frame s s') : Registered p s' := by
  refine ⟨?_, ?_, ?_, ?_⟩
  · rw [hf.libs, hf.infos]
    exact h.info
  · rw [hf.libs, hf.infos]
    exact h.live
  · rw [hf.infos]
    exact h.dependencies
  · rw [hf.dependents, hf.infos]
    exact h.dependents

theorem Registered.withSymbol (h : Registered p s) (lib : Handle) (a : Addr) (symbolIndex : Nat)
    (name : String) : Registered p (s.withSymbol p lib a symbolIndex name) := by
  refine ⟨fun hl => ?_, fun hi => ?_, fun hi => ?_, ?_⟩
  · obtain ⟨i, hi, rfl⟩ := h.info hl
    exact ⟨_, Option.map_eq_some_iff.mpr ⟨i, hi, rfl⟩, rfl⟩
  · obtain ⟨i, hi', rfl⟩ := Option.map_eq_some_iff.mp hi
    have hlive := h.live hi'
    exact hlive
  · obtain ⟨i, hi', rfl⟩ := Option.map_eq_some_iff.mp hi
    have hdeps := h.dependencies hi'
    exact hdeps
  · intro d b
    rw [withSymbol_dependents, h.dependents, withSymbol_infos]
    cases hb : s.infos b <;> simp

/-- What a call does to the indexes. -/
inductive IndexStep (p : Process) (s : HookManager) (c : Call) : HookManager → Prop
  | same : IndexStep p s c s
  | register : c = .addLibrary l addr → l ∉ s.libs → s.infos a = none →
      IndexStep p s c (s.register p l a)
  | unregister : c = .removeLibrary l → s.libs.lookup l = some a → s.infos a = some i →
      IndexStep p s c (s.unregister l a i.dependencies)
  | withSymbol : s.libs.lookup l = some a → s.hookedSymbols a symbolIndex = none →
      IndexStep p s c (s.withSymbol p l a symbolIndex name)

/-- **The calls, as seen from the indexes**: a call makes at most one change to them, and what else
it does leaves them as they are. -/
theorem step_index (h : Registered p s) (hs : step p s c = some s') :
    ∃ s₁, IndexStep p s c s₁ ∧ Frame s₁ s' := by
  have hcreate : ∀ {l symbolIndex replacement orig},
      step p s (.createHook l symbolIndex replacement orig) = some s' →
      ∃ s₁, IndexStep p s c s₁ ∧ Frame s₁ s' := by
    intro l symbolIndex replacement orig hs
    obtain rfl | ⟨a, k, hl, ⟨sid, -, hlink⟩ | ⟨name, hnew, hlink⟩⟩ := createHook_cases h hs
    · exact ⟨_, .same, .refl _⟩
    · exact ⟨_, .same, linkHook_frame hlink⟩
    · exact ⟨_, .withSymbol hl hnew, linkHook_frame hlink⟩
  cases c with
  | addLibrary l addr =>
    obtain rfl := Option.some.inj hs
    rw [HookManager.addLibrary]
    split
    · exact ⟨_, .same, .refl _⟩
    · exact ⟨_, .register rfl ‹_› (h.infos_alloc addr), .refl _⟩
  | removeLibrary l =>
    change s.removeLibrary l = some s' at hs
    rw [HookManager.removeLibrary] at hs
    split at hs
    · cases hs
      exact ⟨_, .same, .refl _⟩
    · obtain ⟨i, hi, rfl⟩ := Option.map_eq_some_iff.mp hs
      exact ⟨_, .unregister rfl ‹_› hi, .refl _⟩
  | createHook l symbolIndex replacement orig => exact hcreate hs
  | createHookByName l name replacement orig =>
    rw [step_createHookByName] at hs
    split at hs
    · exact hcreate hs
    · cases hs
      exact ⟨_, .same, .refl _⟩
  | deleteHook k => exact ⟨_, .same, deleteHook_frame hs⟩
  | applyHooks order => exact ⟨_, .same, applyHooks_frame hs⟩

/-- **The libraries stay consistent** in every call. -/
theorem Registered.step (h : Registered p s) (hs : step p s c = some s') : Registered p s' := by
  obtain ⟨s₁, hindex, hframe⟩ := step_index h hs
  refine Registered.frame ?_ hframe
  cases hindex with
  | same => exact h
  | register _ hl ha => exact h.register hl ha
  | unregister _ hl hi => exact h.unregister hl hi
  | withSymbol => exact h.withSymbol ..

end HookManager

end McpeLauncher.Hook
