import McpeLauncher.Hook.Redirection
import McpeLauncher.Lib.LinkedList

/-!
# Hooking one symbol

A symbol that is hooked when there are no other hooks. Its hooks form a doubly linked list, and the
slots that are bound to it are found again by every call of `applyHooks`. `Hooked` collects what
holds between the calls whatever the hooks and the slots are.
-/

namespace McpeLauncher.Hook
open Function (update)
open LinkedList

namespace HookManager

variable {p : Process} {s s' : HookManager}

def parent (s : HookManager) (k : HookId) : Option HookId := (s.hooks k).bind HookInstance.parent

def child (s : HookManager) (k : HookId) : Option HookId := (s.hooks k).bind HookInstance.child

/-- If the slots of a symbol are left as they are, then its original is not known. -/
theorem original_of_redirection (h : s.redirection sid = some 0) :
    (s.symbols sid).original = 0 := by
  rw [redirection] at h
  split at h
  · exact Option.some.inj h
  · obtain ⟨hook, -, h⟩ := Option.bind_eq_some_iff.mp h
    rw [Option.some.injEq] at h
    split at h
    next hne => exact absurd h hne
    · exact h

/-! ## Creating a hook -/

theorem linked_parent_of_ne (hk : k ≠ s.nextHook) :
    (s.linked sid v o).parent k = s.parent k := by
  rw [parent, parent, linked_hooks_of_ne hk]
  cases s.hooks k <;> rfl

theorem linked_child_of_ne (hk : k ≠ s.nextHook) (hook : s.hooks k = some hook) :
    (s.linked sid v o).child k =
      if s.nextParent sid = some k then some s.nextHook else s.child k := by
  rw [child, child, linked_hooks_of_ne hk, hook]
  rfl

theorem linked_original (x : SymId) :
    ((s.linked sid v o).symbols x).original = (s.symbols x).original := by
  by_cases hx : x = sid <;> simp [hx]

theorem linked_mem_of_ne (hx : x ≠ o) : (s.linked sid v o).mem x = s.mem x := by
  rw [linked_mem]
  cases (s.nextParent sid).bind s.hooks with
  | none => rfl
  | some parent => exact Function.update_of_ne hx ..

theorem linked_callee {par : Option HookId} (h : ∀ q, par = some q → q ≠ s.nextHook)
    (x : SymId) : (s.linked sid v o).callee x par = s.callee x par := by
  cases par with
  | none => rw [callee, callee, linked_original]
  | some q =>
    rw [callee, callee, linked_hooks_of_ne (h q rfl), Option.map_map]
    rfl

/-- A hook with a parent is told to call it. -/
theorem linked_callee_nextParent (hparent : s.nextParent sid = some q)
    (hq : s.hooks q = some hook) (hne : q ≠ s.nextHook) :
    (s.linked sid v o).callee x (s.nextParent sid) = some ((s.linked sid v o).mem o) := by
  rw [linked_callee, hparent, callee, hq, linked_mem, hparent, Option.bind_some, hq]
  · simp
  · intro q' hq'
    rw [hparent, Option.some.injEq] at hq'
    exact hq' ▸ hne

/-! ## Deleting a hook -/

/-- The state without the hook `k`. -/
@[simps]
def unlinked (s : HookManager) (k : HookId) (hook : HookInstance) (value : Nat) : HookManager :=
  { s with
    symbols := update s.symbols hook.symbol { s.symbols hook.symbol with
      firstHook := if (s.symbols hook.symbol).firstHook = some k then hook.child
        else (s.symbols hook.symbol).firstHook
      lastHook := if (s.symbols hook.symbol).lastHook = some k then hook.parent
        else (s.symbols hook.symbol).lastHook }
    hooks := fun x =>
      if x = k then none
      else (s.hooks x).map fun h => { h with
        parent := if hook.child = some x then hook.parent else h.parent
        child := if hook.parent = some x then hook.child else h.child }
    mem := (hook.child.bind s.hooks).elim s.mem fun child => update s.mem child.orig value }

section Unlinked
variable {k x : HookId} {hook : HookInstance} {value : Nat}

theorem unlinked_hooks_cases (h : (s.unlinked k hook value).hooks x = some hook') :
    x ≠ k ∧ ∃ hook₀, s.hooks x = some hook₀ ∧ hook'.symbol = hook₀.symbol ∧
      hook'.parent = (if hook.child = some x then hook.parent else hook₀.parent) ∧
      hook'.replacement = hook₀.replacement ∧ hook'.orig = hook₀.orig := by
  rw [unlinked_hooks] at h
  split at h
  · cases h
  next hx =>
    obtain ⟨hook₀, hhook₀, rfl⟩ := Option.map_eq_some_iff.mp h
    exact ⟨hx, hook₀, hhook₀, rfl, rfl, rfl, rfl⟩

theorem unlinked_hooks_of_ne (hx : x ≠ k) (hhook : s.hooks x = some hook₀) :
    (s.unlinked k hook value).hooks x = some { hook₀ with
      parent := if hook.child = some x then hook.parent else hook₀.parent
      child := if hook.parent = some x then hook.child else hook₀.child } := by
  rw [unlinked_hooks, if_neg hx, hhook]
  rfl

theorem unlinked_original (sid : SymId) :
    ((s.unlinked k hook value).symbols sid).original = (s.symbols sid).original := by
  by_cases hsid : sid = hook.symbol <;> simp [hsid]

theorem unlinked_callee {par : Option HookId} (h : ∀ q, par = some q → q ≠ k) (sid : SymId) :
    (s.unlinked k hook value).callee sid par = s.callee sid par := by
  cases par with
  | none => rw [callee, callee, unlinked_original]
  | some q =>
    rw [callee, callee, unlinked_hooks, if_neg (h q rfl), Option.map_map]
    rfl

theorem unlinked_mem_child (hc : hook.child = some x) (hx : s.hooks x = some hook₀) :
    (s.unlinked k hook value).mem hook₀.orig = value := by
  rw [unlinked_mem, hc, Option.bind_some, hx]
  exact Function.update_self ..

theorem unlinked_mem_of_ne {y : Addr}
    (h : ∀ c child, hook.child = some c → s.hooks c = some child → y ≠ child.orig) :
    (s.unlinked k hook value).mem y = s.mem y := by
  rw [unlinked_mem]
  cases hc : hook.child.bind s.hooks with
  | none => rfl
  | some child =>
    obtain ⟨c, hc, hchild⟩ := Option.bind_eq_some_iff.mp hc
    exact Function.update_of_ne (h c child hc hchild) ..

end Unlinked

theorem relinkChild_eq (hchild : ∀ c, hook.child = some c → s.hooks c ≠ none)
    (hvalue : s.callee hook.symbol hook.parent = some value) :
    s.relinkChild hook = some { s with
      hooks := fun x => (s.hooks x).map fun h => { h with
        parent := if hook.child = some x then hook.parent else h.parent }
      mem := (hook.child.bind s.hooks).elim s.mem fun child => update s.mem child.orig value } := by
  rw [relinkChild]
  cases hc : hook.child with
  | none => simp
  | some c =>
    obtain ⟨child, hh⟩ := Option.ne_none_iff_exists'.mp (hchild c hc)
    simp only [hh, hvalue, Option.bind_eq_bind, Option.bind_some, Option.elim_some]
    congr 2
    funext x
    by_cases hx : x = c
    · subst hx
      simp [hh]
    · simp [hx, Ne.symm hx]

theorem relinkParent_eq (hparent : ∀ q, hook.parent = some q → s.hooks q ≠ none) :
    s.relinkParent hook = some { s with
      hooks := fun x => (s.hooks x).map fun h => { h with
        child := if hook.parent = some x then hook.child else h.child } } := by
  rw [relinkParent]
  cases hq : hook.parent with
  | none => simp
  | some q =>
    obtain ⟨parent, hh⟩ := Option.ne_none_iff_exists'.mp (hparent q hq)
    simp only [hh, Option.bind_eq_bind, Option.bind_some]
    congr 2
    funext x
    by_cases hx : x = q
    · subst hx
      simp [hh]
    · simp [hx, Ne.symm hx]

theorem deleteHook_eq (hk : s.hooks k = some hook)
    (hchild : ∀ c, hook.child = some c → s.hooks c ≠ none)
    (hparent : ∀ q, hook.parent = some q → s.hooks q ≠ none)
    (hvalue : s.callee hook.symbol hook.parent = some value) :
    s.deleteHook k = some (s.unlinked k hook value) := by
  simp only [deleteHook, hk, relinkChild_eq hchild hvalue, Option.bind_eq_bind, Option.bind_some]
  rw [relinkParent_eq]
  · simp only [unlinked, Option.bind_some]
    congr 2
    funext x
    by_cases hx : x = k
    · simp [hx]
    · simp [hx, Function.comp_def]
  · intro q hq
    simpa using hparent q hq

end HookManager

/-! ## Hooking one symbol -/

/-- There are no hooks yet. -/
structure Unhooked (s : HookManager) : Prop where
  hookedSymbols : ∀ a j, s.hookedSymbols a j = none
  infos : s.infos a = some i → ∀ j, i.hookedSymbols j = none
  firstHook : ∀ sid, (s.symbols sid).firstHook = none
  lastHook : ∀ sid, (s.symbols sid).lastHook = none
  hooks : ∀ k, s.hooks k = none

namespace Unhooked

variable {p : Process} {s s' : HookManager}

theorem init (mem : Addr → Nat) : Unhooked (HookManager.init mem) :=
  ⟨fun _ _ => rfl, fun {_ _} h => (by cases h), fun _ => rfl, fun _ => rfl, fun _ => rfl⟩

theorem addLibrary (h : Unhooked s) (l : Handle) (addr : Addr) :
    Unhooked (s.addLibrary p l addr) := by
  rw [HookManager.addLibrary]
  split
  · exact h
  · refine ⟨h.hookedSymbols, fun {a i} hi j => ?_, h.firstHook, h.lastHook, h.hooks⟩
    rw [HookManager.register_infos, Function.update_apply] at hi
    split at hi
    · cases hi
      rfl
    · exact h.infos hi j

theorem removeLibrary (h : Unhooked s) (hs : s.removeLibrary l = some s') : Unhooked s' := by
  rw [HookManager.removeLibrary] at hs
  split at hs
  · cases hs
    exact h
  · obtain ⟨_, -, rfl⟩ := Option.map_eq_some_iff.mp hs
    refine ⟨h.hookedSymbols, fun {a i} hi j => ?_, h.firstHook, h.lastHook, h.hooks⟩
    rw [HookManager.unregister_infos, Function.update_apply] at hi
    split at hi
    · cases hi
    · exact h.infos hi j

end Unhooked

/-- The call adds or removes a library. -/
def Call.isRegistration : Call → Bool
  | .addLibrary _ _ | .removeLibrary _ => true
  | _ => false

/-- As long as libraries are only added and removed, there are no hooks. -/
theorem unhooked_of_run {p : Process} {mem : Addr → Nat} {s : HookManager} {regs : List Call}
    (hregs : ∀ c ∈ regs, c.isRegistration) (hrun : Runs.run (step p) (.init mem) regs = some s) :
    s.Registered p ∧ Unhooked s := by
  have hok : Runs.Meets (step p) (fun _ c => c.isRegistration = true) (.init mem) regs :=
    Runs.meets_of_forall fun c hc _ => hregs c hc
  refine hok.inv_of_run (I := fun s => s.Registered p ∧ Unhooked s)
    (fun s c s' h hc hs => ⟨h.1.step hs, ?_⟩) ⟨.init p mem, .init mem⟩ hrun
  cases c with
  | addLibrary l addr =>
    cases hs
    exact h.2.addLibrary l addr
  | removeLibrary l => exact h.2.removeLibrary hs
  | createHook | createHookByName | deleteHook | applyHooks => cases hc

/-- A symbol of a registered library, in a state in which there are no hooks yet. -/
structure Target (p : Process) where
  start : HookManager
  lib : Handle
  addr : Addr
  symbolIndex : Nat
  name : String
  registered : start.Registered p
  unhooked : Unhooked start
  lookup : start.libs.lookup lib = some addr
  getSymbolName : (p.image lib).getSymbolName symbolIndex = some name

namespace Target

/-- The symbol `j` of a library that is registered by the calls `regs`. -/
def ofRun {p : Process} {mem : Addr → Nat} {s : HookManager} {regs : List Call}
    (hregs : ∀ c ∈ regs, c.isRegistration) (hrun : Runs.run (step p) (.init mem) regs = some s)
    {l : Handle} {a : Addr} (hl : s.libs.lookup l = some a) {j : Nat} {n : String}
    (hname : (p.image l).getSymbolName j = some n) : Target p where
  start := s
  lib := l
  addr := a
  symbolIndex := j
  name := n
  registered := (unhooked_of_run hregs hrun).1
  unhooked := (unhooked_of_run hregs hrun).2
  lookup := hl
  getSymbolName := hname

variable {p : Process} (t : Target p)

/-- The symbol gets this number when it is hooked. -/
def symbol : SymId := t.start.nextSymbol

/-- The state in which the symbol has been entered. -/
def entered : HookManager := t.start.withSymbol p t.lib t.addr t.symbolIndex t.name

/-- The slots that are bound to the symbol when it is hooked. -/
def Slot (r : Reloc) : Prop :=
  ∃ M b, t.start.libs.lookup M = some b ∧ r ∈ (p.image M).recorded ∧ r.type.supported = true ∧
    HookManager.Binds p t.lib t.symbolIndex t.name M r

/-- The live hooks of the symbol `sid` are the nodes of a doubly linked list, in the order in which
they were created. -/
structure Chained (s : HookManager) (sid : SymId) (hs : List HookId) : Prop where
  live : k ∈ hs ↔ ∃ hook, s.hooks k = some hook ∧ hook.symbol = sid
  ordered : hs.Pairwise (· < ·)
  firstHook : (s.symbols sid).firstHook = hs.head?
  lastHook : (s.symbols sid).lastHook = hs.getLast?
  linked : Linked s.parent s.child hs

/-! ## The invariant -/

/-- The symbol is hooked, and it is the only one. -/
structure Indexed (s : HookManager) : Prop where
  registered : s.Registered p
  libs : s.libs = t.start.libs
  key : s.hookedSymbols t.addr t.symbolIndex = some t.symbol
  bound : s.libs.lookup M = some b → s.infos b = some i → ∀ r,
    (HookManager.Binds p t.lib t.symbolIndex t.name M r → i.hookedSymbols r.sym = some t.symbol) ∧
      (¬HookManager.Binds p t.lib t.symbolIndex t.name M r → i.hookedSymbols r.sym = none)
/-- Every call keeps this, once the symbol is hooked. -/
structure Hooked (s : HookManager) (hs : List HookId) : Prop extends
    t.Indexed s, Chained s t.symbol hs where
  others : sid ≠ t.symbol → (s.symbols sid).firstHook = none ∧ (s.symbols sid).lastHook = none
  hook_symbol : s.hooks k = some hook → hook.symbol = t.symbol
  lt_nextHook : k ∈ hs → k < s.nextHook
  orig_slot : s.hooks k = some hook → t.Slot r → r.addr ≠ hook.orig

variable {t} {s s' : HookManager} {hs P Q : List HookId}

theorem Indexed.frame (h : t.Indexed s) (hf : s.Frame s') : t.Indexed s' := by
  refine ⟨h.registered.frame hf, hf.libs.trans h.libs, ?_, ?_⟩
  · rw [hf.hookedSymbols]
    exact h.key
  · rw [hf.libs, hf.infos]
    exact h.bound
namespace Hooked

theorem mem_iff (h : t.Hooked s hs) : k ∈ hs ↔ ∃ hook, s.hooks k = some hook := by
  rw [h.live]
  exact exists_congr fun hook => and_iff_left_of_imp h.hook_symbol

theorem nodup (h : t.Hooked s hs) : hs.Nodup :=
  h.ordered.imp Nat.ne_of_lt

theorem liveEnds (h : t.Hooked s hs) : s.LiveEnds := by
  intro sid k hk
  by_cases hsid : sid = t.symbol
  · subst hsid
    rw [h.firstHook, h.lastHook] at hk
    have hmem : k ∈ hs := hk.elim List.mem_of_head? List.mem_of_getLast?
    exact Option.ne_none_iff_exists'.mpr (h.mem_iff.mp hmem)
  · simp [(h.others hsid).1, (h.others hsid).2] at hk

theorem nextParent (h : t.Hooked s hs) : s.nextParent t.symbol = hs.getLast? := by
  rw [HookManager.nextParent, h.firstHook, h.lastHook]
  cases hs with
  | nil => rfl
  | cons k hs => rfl

theorem ne_nextHook (h : t.Hooked s hs) (hk : s.hooks k = some hook) : k ≠ s.nextHook :=
  Nat.ne_of_lt (h.lt_nextHook (h.mem_iff.mpr ⟨hook, hk⟩))

/-- The parent of a live hook is a live hook. -/
theorem parent_mem (h : t.Hooked s hs) (hk : s.hooks k = some hook) (hq : hook.parent = some q) :
    q ∈ hs ∧ s.child q = some k := by
  have hprev : s.parent k = some q := by rw [HookManager.parent, hk, Option.bind_some, hq]
  exact h.linked.next_of_prev (h.mem_iff.mpr ⟨hook, hk⟩) hprev

theorem child_mem (h : t.Hooked s hs) (hk : s.hooks k = some hook) (hc : hook.child = some c) :
    c ∈ hs ∧ s.parent c = some k := by
  have hnext : s.child k = some c := by rw [HookManager.child, hk, Option.bind_some, hc]
  exact h.linked.prev_of_next (h.mem_iff.mpr ⟨hook, hk⟩) hnext

theorem withSymbol (t : Target p) : t.Hooked t.entered [] := by
  have hsym : t.entered.symbols t.symbol = ⟨t.addr, t.symbolIndex, 0, none, none⟩ :=
    Function.update_self ..
  have hhooks : ∀ {k hook}, t.start.hooks k ≠ some hook := fun {k hook} => by
    simp [t.unhooked.hooks k]
  refine ⟨⟨t.registered.withSymbol .., rfl, ?_, fun {M b i} hM hi r => ?_⟩,
    ⟨fun {k} => ?_, .nil, by rw [hsym]; rfl, by rw [hsym]; rfl, .nil⟩, fun {sid} hsid => ?_,
    fun hk => absurd hk hhooks, fun hk => absurd hk List.not_mem_nil,
    fun hk => absurd hk hhooks⟩
  · rw [entered, HookManager.withSymbol_hookedSymbols_apply, if_pos ⟨rfl, rfl⟩]
    rfl
  · obtain ⟨i₀, hi₀, -⟩ := t.registered.info hM
    obtain ⟨hbinds, hkeeps⟩ := HookManager.withSymbol_info t.registered t.lookup hM hi₀ hi r
    exact ⟨hbinds, fun hr => (hkeeps hr).trans (t.unhooked.infos hi₀ _)⟩
  · simp [entered, t.unhooked.hooks k]
  · rw [entered, HookManager.withSymbol_symbols, Function.update_of_ne (by exact hsid)]
    exact ⟨t.unhooked.firstHook sid, t.unhooked.lastHook sid⟩

/-- The original of a symbol is not known when it is hooked. -/
theorem withSymbol_original (t : Target p) : (t.entered.symbols t.symbol).original = 0 := by
  rw [entered, HookManager.withSymbol_symbols, symbol, Function.update_self]

theorem chained_linked (h : t.Hooked s hs) :
    Chained (s.linked t.symbol v o) t.symbol (hs ++ [s.nextHook]) := by
  have hne : ∀ {k}, k ∈ hs → k ≠ s.nextHook := fun hk => Nat.ne_of_lt (h.lt_nextHook hk)
  have hsym : (s.linked t.symbol v o).symbols t.symbol = { s.symbols t.symbol with
      firstHook := (s.symbols t.symbol).firstHook.or (some s.nextHook)
      lastHook := some s.nextHook } := Function.update_self ..
  refine ⟨fun {k} => ?_, ?_, ?_, ?_, ?_⟩
  · rw [List.mem_append, List.mem_singleton]
    constructor
    · rintro (hk | rfl)
      · obtain ⟨hook, hk', hsymbol⟩ := h.live.mp hk
        rw [HookManager.linked_hooks_of_ne (hne hk), hk']
        exact ⟨_, rfl, hsymbol⟩
      · exact ⟨_, HookManager.linked_hooks_nextHook .., rfl⟩
    · rintro ⟨hook, hk, -⟩
      obtain ⟨rfl, -⟩ | ⟨hook₀, hk₀, -⟩ := HookManager.linked_hooks_cases hk
      · exact .inr rfl
      · exact .inl (h.mem_iff.mpr ⟨hook₀, hk₀⟩)
  · refine List.pairwise_append.mpr ⟨h.ordered, List.pairwise_singleton _ _, fun k hk k' hk' => ?_⟩
    rw [List.mem_singleton.mp hk']
    exact h.lt_nextHook hk
  · rw [hsym, h.firstHook, List.head?_append]
    rfl
  · rw [hsym, List.getLast?_concat]
  · refine h.linked.concat h.nodup (fun k hk => ?_) (fun k hk => ?_) ?_ ?_
    · exact HookManager.linked_parent_of_ne (hne hk)
    · obtain ⟨hook, hk'⟩ := h.mem_iff.mp hk
      rw [HookManager.linked_child_of_ne (hne hk) hk', h.nextParent]
    · rw [HookManager.parent, HookManager.linked_hooks_nextHook, Option.bind_some, h.nextParent]
    · rw [HookManager.child, HookManager.linked_hooks_nextHook, Option.bind_some]

theorem link (h : t.Hooked s hs) (ho : ∀ r, t.Slot r → r.addr ≠ o) :
    t.Hooked (s.linked t.symbol v o) (hs ++ [s.nextHook]) := by
  have hframe := HookManager.linked_frame h.liveEnds t.symbol v o
  refine ⟨h.toIndexed.frame hframe, h.chained_linked, fun {sid} hsid => ?_,
    fun {k hook} hk => ?_, fun {k} hk => ?_, fun {k hook r} hk hr => ?_⟩
  · rw [HookManager.linked_symbols, Function.update_of_ne hsid]
    exact h.others hsid
  · obtain ⟨-, rfl⟩ | ⟨hook₀, hk₀, heq, -⟩ := HookManager.linked_hooks_cases hk
    · rfl
    · rw [heq, h.hook_symbol hk₀]
  · rcases List.mem_append.mp hk with hk | hk
    · exact Nat.lt_succ_of_lt (h.lt_nextHook hk)
    · rw [List.mem_singleton.mp hk]
      exact Nat.lt_succ_self _
  · obtain ⟨-, rfl⟩ | ⟨hook₀, hk₀, -, -, -, heq⟩ := HookManager.linked_hooks_cases hk
    · exact ho r hr
    · rw [heq]
      exact h.orig_slot hk₀ hr

theorem deleteHook_eq (h : t.Hooked s hs) (hk : s.hooks k = some hook) :
    ∃ value, s.callee t.symbol hook.parent = some value ∧
      s.deleteHook k = some (s.unlinked k hook value) := by
  have hparent : ∀ q, hook.parent = some q → s.hooks q ≠ none := fun q hq =>
    Option.ne_none_iff_exists'.mpr (h.mem_iff.mp (h.parent_mem hk hq).1)
  obtain ⟨value, hvalue⟩ : ∃ value, s.callee t.symbol hook.parent = some value := by
    cases hq : hook.parent with
    | none => exact ⟨_, rfl⟩
    | some q =>
      obtain ⟨parent, hparent⟩ := Option.ne_none_iff_exists'.mp (hparent q hq)
      exact ⟨_, by rw [HookManager.callee, hparent]; rfl⟩
  refine ⟨value, hvalue, HookManager.deleteHook_eq hk (fun c hc => ?_) hparent ?_⟩
  · exact Option.ne_none_iff_exists'.mpr (h.mem_iff.mp (h.child_mem hk hc).1)
  · rw [h.hook_symbol hk, hvalue]

/-- The child of a live hook is the hook whose parent it is. -/
theorem child_iff (h : t.Hooked s hs) (hk : s.hooks k = some hook) (hx : x ∈ hs) :
    hook.child = some x ↔ s.parent x = some k := by
  have hchild : s.child k = hook.child := by rw [HookManager.child, hk, Option.bind_some]
  exact ⟨fun hc => (h.child_mem hk hc).2, fun hp => hchild ▸ (h.linked.next_of_prev hx hp).2⟩

theorem parent_iff (h : t.Hooked s hs) (hk : s.hooks k = some hook) (hx : x ∈ hs) :
    hook.parent = some x ↔ s.child x = some k := by
  have hparent : s.parent k = hook.parent := by rw [HookManager.parent, hk, Option.bind_some]
  exact ⟨fun hq => (h.parent_mem hk hq).2, fun hn => hparent ▸ (h.linked.prev_of_next hx hn).2⟩

theorem mem_unlink (h : t.Hooked s (P ++ k :: Q)) : x ∈ P ++ Q ↔ x ∈ P ++ k :: Q ∧ x ≠ k := by
  obtain ⟨hkP, hkQ⟩ := notMem_of_nodup h.nodup
  constructor
  · intro hx
    refine ⟨((List.sublist_cons_self k Q).append_left P).subset hx, ?_⟩
    rintro rfl
    exact (List.mem_append.mp hx).elim hkP hkQ
  · rintro ⟨hx, hne⟩
    simpa [hne] using hx

theorem chained_unlinked (h : t.Hooked s (P ++ k :: Q)) (hk : s.hooks k = some hook) :
    Chained (s.unlinked k hook value) t.symbol (P ++ Q) := by
  have hparent : s.parent k = hook.parent := by rw [HookManager.parent, hk, Option.bind_some]
  have hchild : s.child k = hook.child := by rw [HookManager.child, hk, Option.bind_some]
  have hsym : (s.unlinked k hook value).symbols t.symbol = { s.symbols t.symbol with
      firstHook := if (s.symbols t.symbol).firstHook = some k then hook.child
        else (s.symbols t.symbol).firstHook
      lastHook := if (s.symbols t.symbol).lastHook = some k then hook.parent
        else (s.symbols t.symbol).lastHook } := by
    rw [HookManager.unlinked_symbols, h.hook_symbol hk, Function.update_self]
  refine ⟨fun {x} => ?_, ?_, ?_, ?_, ?_⟩
  · constructor
    · intro hx
      obtain ⟨hx, hne⟩ := h.mem_unlink.mp hx
      obtain ⟨hook₀, hx₀, hsymbol⟩ := h.live.mp hx
      exact ⟨_, HookManager.unlinked_hooks_of_ne hne hx₀, hsymbol⟩
    · rintro ⟨hook', hx, -⟩
      obtain ⟨hxk, hook₀, hx₀, -⟩ := HookManager.unlinked_hooks_cases hx
      exact h.mem_unlink.mpr ⟨h.mem_iff.mpr ⟨hook₀, hx₀⟩, hxk⟩
  · exact h.ordered.sublist ((List.sublist_cons_self k Q).append_left P)
  · rw [hsym, h.firstHook, h.linked.head?_unlink h.nodup, hchild]
  · rw [hsym, h.lastHook, h.linked.getLast?_unlink h.nodup, hparent]
  · refine h.linked.unlink h.nodup (fun x hx => ?_) (fun x hx => ?_)
    · obtain ⟨hx, hne⟩ := h.mem_unlink.mp hx
      obtain ⟨hook₀, hx₀⟩ := h.mem_iff.mp hx
      rw [hparent, HookManager.parent, HookManager.unlinked_hooks_of_ne hne hx₀]
      simp only [Option.bind_some, h.child_iff hk hx]
      simp only [HookManager.parent, hx₀, Option.bind_some]
    · obtain ⟨hx, hne⟩ := h.mem_unlink.mp hx
      obtain ⟨hook₀, hx₀⟩ := h.mem_iff.mp hx
      rw [hchild, HookManager.child, HookManager.unlinked_hooks_of_ne hne hx₀]
      simp only [Option.bind_some, h.parent_iff hk hx]
      simp only [HookManager.child, hx₀, Option.bind_some]

theorem unlink (h : t.Hooked s (P ++ k :: Q)) (hk : s.hooks k = some hook)
    (hdelete : s.deleteHook k = some (s.unlinked k hook value)) :
    t.Hooked (s.unlinked k hook value) (P ++ Q) := by
  refine ⟨h.toIndexed.frame (HookManager.deleteHook_frame hdelete), h.chained_unlinked hk,
    fun {sid} hsid => ?_, fun {x hook'} hx => ?_, fun {x} hx => ?_, fun {x hook' r} hx hr => ?_⟩
  · rw [HookManager.unlinked_symbols, h.hook_symbol hk, Function.update_of_ne hsid]
    exact h.others hsid
  · obtain ⟨-, hook₀, hx₀, heq, -⟩ := HookManager.unlinked_hooks_cases hx
    rw [heq, h.hook_symbol hx₀]
  · exact h.lt_nextHook (h.mem_unlink.mp hx).1
  · obtain ⟨-, hook₀, hx₀, -, -, -, heq⟩ := HookManager.unlinked_hooks_cases hx
    rw [heq]
    exact h.orig_slot hx₀ hr

/-- Creating and deleting hooks does not touch the slots. -/
theorem linked_mem_slot (ho : ∀ r, t.Slot r → r.addr ≠ o) (hr : t.Slot r) :
    (s.linked t.symbol v o).mem r.addr = s.mem r.addr :=
  HookManager.linked_mem_of_ne (ho r hr)

theorem unlinked_mem_slot (h : t.Hooked s hs) (hr : t.Slot r) :
    (s.unlinked k hook value).mem r.addr = s.mem r.addr :=
  HookManager.unlinked_mem_of_ne fun _ _ _ hc => h.orig_slot hc hr

/-! ## Applying the hooks -/

theorem hit (h : t.Hooked s hs) (hw : w ∈ s.visits p order) (hhit : s.Hit w sid) :
    sid = t.symbol ∧ t.Slot w.2 := by
  obtain ⟨M, hM, hr⟩ := HookManager.mem_visits.mp hw
  obtain ⟨i, hi, hsid, hsup⟩ := hhit
  obtain ⟨hbinds, hfree⟩ := h.bound hM hi w.2
  by_cases hb : HookManager.Binds p t.lib t.symbolIndex t.name M w.2
  · rw [hbinds hb, Option.some.injEq] at hsid
    exact ⟨hsid.symm, M, w.1, h.libs ▸ hM, hr, hsup, hb⟩
  · rw [hfree hb] at hsid
    cases hsid

theorem exists_visit (h : t.Hooked s hs) (hr : t.Slot r) (order : List Handle) :
    ∃ w ∈ s.visits p order, w.2 = r ∧ s.Hit w t.symbol := by
  obtain ⟨M, b, hM, hr, hsup, hb⟩ := hr
  rw [← h.libs] at hM
  obtain ⟨i, hi, -⟩ := h.registered.info hM
  exact ⟨(b, r), HookManager.mem_visits.mpr ⟨M, hM, hr⟩, rfl, i, hi, (h.bound hM hi r).1 hb, hsup⟩

theorem firstOrig (h : t.Hooked s hs) (ho : s.firstOrig sid = some o) :
    sid = t.symbol ∧ ∃ k hook, hs.head? = some k ∧ s.hooks k = some hook ∧ hook.orig = o := by
  obtain ⟨k, hk, hmap⟩ := Option.bind_eq_some_iff.mp ho
  obtain ⟨hook, hhook, horig⟩ := Option.map_eq_some_iff.mp hmap
  by_cases hsid : sid = t.symbol
  · subst hsid
    exact ⟨rfl, k, hook, h.firstHook ▸ hk, hhook, horig⟩
  · rw [(h.others hsid).1] at hk
    cases hk

/-- The first hook is the one without a parent. -/
theorem parent_eq_none_iff (h : t.Hooked s hs) (hk : s.hooks k = some hook) :
    hook.parent = none ↔ hs.head? = some k := by
  obtain ⟨A, B, rfl⟩ := List.append_of_mem (h.mem_iff.mpr ⟨hook, hk⟩)
  have hparent := (h.linked A k B rfl).1
  rw [HookManager.parent, hk, Option.bind_some] at hparent
  rw [hparent, List.getLast?_eq_none_iff]
  cases A with
  | nil => simp
  | cons x A =>
    have hx : x ≠ k := by
      rintro rfl
      exact (notMem_of_nodup h.nodup).1 (.head _)
    simp [hx]

theorem ready (h : t.Hooked s hs) (order : List Handle) : s.Ready (s.visits p order) := by
  refine ⟨h.liveEnds, fun w hw => ?_, HookManager.visits_nodup s order, fun w hw hhit x hx => ?_⟩
  · obtain ⟨M, hM, -⟩ := HookManager.mem_visits.mp hw
    obtain ⟨i, hi, -⟩ := h.registered.info hM
    simp [hi]
  · obtain ⟨-, k, hook, -, hk, horig⟩ := h.firstOrig hx
    exact h.orig_slot hk (h.hit hw hhit).2 horig.symm

theorem chained_applied (h : t.Hooked s hs) (happ : s.Applied s') : Chained s' t.symbol hs := by
  refine ⟨?_, h.ordered, (happ.firstHook _).trans h.firstHook, (happ.lastHook _).trans h.lastHook,
    h.linked.congr (fun k _ => ?_) (fun k _ => ?_)⟩
  · rw [happ.hooks]
    exact h.live
  · rw [HookManager.parent, HookManager.parent, happ.hooks]
  · rw [HookManager.child, HookManager.child, happ.hooks]

/-- A pass keeps the invariant. -/
theorem applied (h : t.Hooked s hs) (happ : s.Applied s') : t.Hooked s' hs := by
  refine ⟨h.toIndexed.frame happ.toFrame, h.chained_applied happ, fun hsid => ?_, ?_, ?_, ?_⟩
  · rw [happ.firstHook, happ.lastHook]
    exact h.others hsid
  · rw [happ.hooks]
    exact h.hook_symbol
  · rw [happ.nextHook]
    exact h.lt_nextHook
  · rw [happ.hooks]
    exact h.orig_slot

/-- A pass that does not redirect the slots leaves the memory as it is. -/
theorem mem_of_redirection (h : t.Hooked s hs) (hpass : s.Pass (s.visits p order) [] s')
    (hred : s.redirection t.symbol = some 0) (x : Addr) : s'.mem x = s.mem x := by
  refine hpass.other (fun w hw sid hhit hne => ?_) (fun sid hne ho => ?_)
  · obtain ⟨rfl, -⟩ := h.hit hw hhit
    exact absurd hred hne
  · obtain ⟨rfl, -⟩ := h.firstOrig ho
    have hred' := (hpass.redirection t.symbol).trans hred
    refine absurd ?_ hne
    rw [HookManager.original_of_redirection hred, HookManager.original_of_redirection hred']

/-- After a pass, a slot has what the symbol is redirected to. -/
theorem mem_slot (h : t.Hooked s hs) (hpass : s.Pass (s.visits p order) [] s') (hr : t.Slot r)
    (hred : s.redirection t.symbol = some v) (hv : v ≠ 0) : s'.mem r.addr = v := by
  obtain ⟨w, hw, rfl, hhit⟩ := h.exists_visit hr order
  exact hpass.done w hw (by simp) hhit hred hv

/-- A pass that redirects the slots finds the original in them. -/
theorem original_ne_zero (h : t.Hooked s hs) (hpass : s.Pass (s.visits p order) [] s')
    (hred : s.redirection t.symbol ≠ some 0) (hr : t.Slot r)
    (hne : HookManager.elfWord (s.mem r.addr) ≠ 0) : (s'.symbols t.symbol).original ≠ 0 := by
  obtain ⟨w, hw, rfl, hhit⟩ := h.exists_visit hr order
  exact fun h0 => hne (hpass.unknown h0 w hw (by simp) hhit hred)

/-- An original that becomes known was in a slot, and the first hook is told. -/
theorem learned (h : t.Hooked s hs) (hpass : s.Pass (s.visits p order) [] s')
    (h0 : (s.symbols t.symbol).original = 0) (hne : (s'.symbols t.symbol).original ≠ 0) :
    (∃ r, t.Slot r ∧ (s'.symbols t.symbol).original = HookManager.elfWord (s.mem r.addr)) ∧
      ∀ o, s.firstOrig t.symbol = some o → s'.mem o = (s'.symbols t.symbol).original := by
  obtain ⟨⟨w, hw, hhit, heq⟩, htold⟩ := hpass.learned h0 hne
  exact ⟨⟨w.2, (h.hit hw hhit).2, heq⟩, fun o ho => htold o ho fun x hx => (h.firstOrig hx).1⟩

end Hooked

/-! ## The steps -/

/-- The first call of `createHook` enters the symbol. -/
theorem step_createHook_start (t : Target p) :
    step p t.start (.createHook t.lib t.symbolIndex v o) =
      some (t.entered.linked t.symbol v o) := by
  rw [HookManager.step_createHook_new t.registered t.lookup (t.unhooked.hookedSymbols ..)
    t.getSymbolName]
  exact congrArg (Option.map Prod.snd)
    (HookManager.linkHook_eq (Hooked.withSymbol t).liveEnds t.symbol v o)

theorem Hooked.step_createHook (h : t.Hooked s hs) :
    step p s (.createHook t.lib t.symbolIndex v o) = some (s.linked t.symbol v o) := by
  rw [HookManager.step_createHook_hooked (h.libs ▸ t.lookup) h.key,
    HookManager.linkHook_eq h.liveEnds]
  rfl

/-- Before the symbol is hooked, `applyHooks` does nothing. -/
theorem applyHooks_start (t : Target p) (order : List Handle) :
    t.start.applyHooks p order = some t.start := by
  have hends : t.start.LiveEnds := fun sid k hk => by
    simp [t.unhooked.firstHook sid, t.unhooked.lastHook sid] at hk
  have hstep : ∀ s (w : Addr × Reloc) (todo : List (Addr × Reloc)),
      (s = t.start ∧ ∀ w' ∈ w :: todo, t.start.infos w'.1 ≠ none) →
      ∃ s', s.applySlot w = some s' ∧ s' = t.start ∧ ∀ w ∈ todo, t.start.infos w.1 ≠ none := by
    rintro s w todo ⟨rfl, hinfos⟩
    obtain ⟨happly, -⟩ | ⟨sid, -, ⟨i, hi, hsid, -⟩, -⟩ :=
      HookManager.applySlot_cases hends (hinfos w (.head _))
    · exact ⟨_, happly, rfl, fun w hw => hinfos w (.tail _ hw)⟩
    · rw [t.unhooked.infos hi] at hsid
      cases hsid
  rw [HookManager.applyHooks_eq]
  have hinfos : ∀ w ∈ t.start.visits p order, t.start.infos w.1 ≠ none := fun w hw => by
    obtain ⟨M, hM, -⟩ := HookManager.mem_visits.mp hw
    obtain ⟨i, hi, -⟩ := t.registered.info hM
    simp [hi]
  obtain ⟨s', hs', rfl, -⟩ := Runs.run_todo
    (I := fun (todo : List (Addr × Reloc)) s => s = t.start ∧
      ∀ w ∈ todo, t.start.infos w.1 ≠ none) hstep ⟨rfl, hinfos⟩
  exact hs'

end Target

/-- The symbol `foo` of the first library; its slot holds `content`. -/
def fooWith (content : Nat) : Target fooLibraries :=
  @Target.ofRun fooLibraries (fun x => if x = 100 then content else 0) _ [.addLibrary 1 10]
    (by decide) rfl 1 10 rfl 1 "foo" rfl

theorem fooWith_slot : (fooWith content).Slot r ↔ r = ⟨.JUMP_SLOT, 1, 100⟩ := by
  constructor
  · rintro ⟨M, b, hM, hr, -⟩
    have hmem : M ∈ [1] := AList.mem_keys.mp (AList.lookup_isSome.mp (by rw [hM]; rfl))
    obtain rfl := List.mem_singleton.mp hmem
    exact List.mem_singleton.mp hr
  · rintro rfl
    exact ⟨1, 10, rfl, by decide, rfl, .inl ⟨rfl, rfl⟩⟩

end McpeLauncher.Hook
