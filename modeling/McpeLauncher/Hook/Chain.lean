import McpeLauncher.Hook.Target

/-!
# The chain of hooks

The hooks of one symbol are to form a doubly linked list in the order in which they were created.
After `applyHooks` the slots of the symbol should go to the last hook, and each hook should know
what to call: the replacement of its parent, or the original. `createHook` and `deleteHook` write
this for a hook with a parent or with a child; for a first hook it is left to the call of
`applyHooks` in which the original becomes known. If all hooks are deleted after that, then the next
hook is never told the original. `CallOk` excludes this.
-/

namespace McpeLauncher.Hook

namespace Target

variable {p : Process} (t : Target p)

/-- The conditions for creating a hook: it has a replacement, its word for the original is not one
of the slots and not that of another hook, and if the original is known and there is no hook, then
this word already holds the original. -/
structure HookOk (s : HookManager) (v : Nat) (o : Addr) : Prop where
  replacement : v ≠ 0
  slot : t.Slot r → r.addr ≠ o
  orig : s.hooks k = some hook → hook.orig ≠ o
  known : s.hookedSymbols t.addr t.symbolIndex = some sid → (s.symbols sid).firstHook = none →
    (s.symbols sid).original = 0 ∨ s.mem o = (s.symbols sid).original

/-- The call is one of `createHook` for the symbol, `deleteHook` of a live hook and `applyHooks`. -/
def CallOk (s : HookManager) : Call → Prop
  | .createHook l j replacement orig => l = t.lib ∧ j = t.symbolIndex ∧ t.HookOk s replacement orig
  | .createHookByName l name replacement orig => l = t.lib ∧
      (p.image l).getSymbolIndex name = t.symbolIndex ∧ t.HookOk s replacement orig
  | .deleteHook k => s.hooks k ≠ none
  | .applyHooks _ => True
  | .addLibrary _ _ | .removeLibrary _ => False

/-- Hooks are chained, slots go to the last one or to the original, and each hook knows what to
call. Without a hook and an original no slot has been redirected. -/
structure Settled (s : HookManager) (sid : SymId) (hs : List HookId) : Prop extends
    Chained s sid hs where
  slot_hook : t.Slot r → (s.symbols sid).lastHook = some k → s.hooks k = some hook →
    s.mem r.addr = hook.replacement
  slot_original : t.Slot r → (s.symbols sid).lastHook = none → (s.symbols sid).original ≠ 0 →
    s.mem r.addr = (s.symbols sid).original
  slot_start : t.Slot r → (s.symbols sid).lastHook = none → (s.symbols sid).original = 0 →
    s.mem r.addr = t.start.mem r.addr
  orig : k ∈ hs → s.hooks k = some hook → s.callee sid hook.parent = some (s.mem hook.orig)
  original : hs ≠ [] → (s.symbols sid).original ≠ 0
  original_slot : (s.symbols sid).original ≠ 0 →
    ∃ r, t.Slot r ∧ (s.symbols sid).original = HookManager.elfWord (t.start.mem r.addr)

/-! ## The invariant -/

/-- The invariant between the calls, once the symbol is hooked. -/
structure Inv (s : HookManager) (hs : List HookId) : Prop extends
    t.Indexed s, Chained s t.symbol hs where
  others : sid ≠ t.symbol → (s.symbols sid).firstHook = none ∧ (s.symbols sid).lastHook = none
  hook_symbol : s.hooks k = some hook → hook.symbol = t.symbol
  lt_nextHook : k ∈ hs → k < s.nextHook
  replacement : s.hooks k = some hook → hook.replacement ≠ 0
  orig_slot : s.hooks k = some hook → t.Slot r → r.addr ≠ hook.orig
  orig_inj : s.hooks k = some hook → s.hooks k' = some hook' → hook.orig = hook'.orig → k = k'
  orig : s.hooks k = some hook → hook.parent ≠ none ∨ (s.symbols t.symbol).original ≠ 0 →
    s.callee t.symbol hook.parent = some (s.mem hook.orig)
  unknown : (s.symbols t.symbol).original = 0 → t.Slot r → s.mem r.addr = t.start.mem r.addr
  known : (s.symbols t.symbol).original ≠ 0 →
    ∃ r, t.Slot r ∧ (s.symbols t.symbol).original = HookManager.elfWord (t.start.mem r.addr)

variable {t} {s s' : HookManager} {hs P Q : List HookId}

namespace Inv

theorem toHooked (h : t.Inv s hs) : t.Hooked s hs :=
  ⟨h.toIndexed, h.toChained, h.others, h.hook_symbol, h.lt_nextHook, h.orig_slot⟩

theorem withSymbol (t : Target p) : t.Inv t.entered [] := by
  have h := Hooked.withSymbol t
  have hhooks : ∀ {k hook}, t.start.hooks k ≠ some hook := fun {k hook} => by
    simp [t.unhooked.hooks k]
  exact ⟨h.toIndexed, h.toChained, h.others, h.hook_symbol, h.lt_nextHook,
    fun hk => absurd hk hhooks, h.orig_slot, fun hk => absurd hk hhooks,
    fun hk => absurd hk hhooks, fun _ _ => rfl,
    fun hne => absurd (Hooked.withSymbol_original t) hne⟩

/-- A new hook knows what to call if it has a parent, or if its word already holds the original. -/
theorem orig_linked_nextHook (h : t.Inv s hs) (hok : t.HookOk s v o)
    (hne : s.nextParent t.symbol ≠ none ∨ (s.symbols t.symbol).original ≠ 0) :
    (s.linked t.symbol v o).callee t.symbol (s.nextParent t.symbol) =
      some ((s.linked t.symbol v o).mem o) := by
  cases hq : s.nextParent t.symbol with
  | some q =>
    have hlast : hs.getLast? = some q := h.toHooked.nextParent ▸ hq
    obtain ⟨parent, hparent⟩ := h.toHooked.mem_iff.mp (List.mem_of_getLast? hlast)
    rw [← hq]
    exact HookManager.linked_callee_nextParent hq hparent (h.toHooked.ne_nextHook hparent)
  | none =>
    have hnil : hs = [] := List.getLast?_eq_none_iff.mp (h.toHooked.nextParent ▸ hq)
    have hfirst : (s.symbols t.symbol).firstHook = none := by rw [h.firstHook, hnil]; rfl
    have hknown := (hok.known h.key hfirst).resolve_left (hne.resolve_left (not_not_intro hq))
    rw [HookManager.callee, HookManager.linked_original, HookManager.linked_mem, hq]
    exact congrArg some hknown.symm

theorem link (h : t.Inv s hs) (hok : t.HookOk s v o) :
    t.Inv (s.linked t.symbol v o) (hs ++ [s.nextHook]) := by
  have hlinked : t.Hooked (s.linked t.symbol v o) (hs ++ [s.nextHook]) :=
    h.toHooked.link fun r => hok.slot
  have horiginal : ((s.linked t.symbol v o).symbols t.symbol).original =
      (s.symbols t.symbol).original := HookManager.linked_original _
  refine ⟨hlinked.toIndexed, hlinked.toChained, hlinked.others, hlinked.hook_symbol,
    hlinked.lt_nextHook, fun {k hook} hk => ?_, hlinked.orig_slot,
    fun {k hook k' hook'} hk hk' horig => ?_, fun {k hook} hk hne => ?_, fun {r} h0 hr => ?_,
    fun hne => ?_⟩
  · obtain ⟨-, rfl⟩ | ⟨hook₀, hk₀, -, -, heq, -⟩ := HookManager.linked_hooks_cases hk
    · exact hok.replacement
    · rw [heq]
      exact h.replacement hk₀
  · obtain ⟨rfl, rfl⟩ | ⟨hook₀, hk₀, -, -, -, heq⟩ := HookManager.linked_hooks_cases hk <;>
      obtain ⟨rfl, rfl⟩ | ⟨hook₀', hk₀', -, -, -, heq'⟩ := HookManager.linked_hooks_cases hk'
    · rfl
    · exact absurd (heq'.symm.trans horig.symm) (hok.orig hk₀')
    · exact absurd (heq.symm.trans horig) (hok.orig hk₀)
    · exact h.orig_inj hk₀ hk₀' (heq.symm.trans (horig.trans heq'))
  · rw [horiginal] at hne
    obtain ⟨rfl, rfl⟩ | ⟨hook₀, hk₀, -, hpar, -, heq⟩ := HookManager.linked_hooks_cases hk
    · exact h.orig_linked_nextHook hok hne
    · rw [hpar] at hne ⊢
      rw [heq, HookManager.linked_callee, HookManager.linked_mem_of_ne (hok.orig hk₀)]
      · exact h.orig hk₀ hne
      · exact fun q hq => Nat.ne_of_lt (h.lt_nextHook (h.toHooked.parent_mem hk₀ hq).1)
  · rw [horiginal] at h0
    rw [HookManager.linked_mem_of_ne (hok.slot hr), h.unknown h0 hr]
  · rw [horiginal] at hne ⊢
    exact h.known hne

/-- The child of the deleted hook is told to call what that hook called; the others go on calling
what they called. -/
theorem orig_unlinked (h : t.Inv s hs) (hk : s.hooks k = some hook)
    (hvalue : s.callee t.symbol hook.parent = some value)
    (hx : (s.unlinked k hook value).hooks x = some hook')
    (hne : hook'.parent ≠ none ∨ (s.symbols t.symbol).original ≠ 0) :
    (s.unlinked k hook value).callee t.symbol hook'.parent =
      some ((s.unlinked k hook value).mem hook'.orig) := by
  obtain ⟨-, hook₀, hx₀, -, hpar, -, heq⟩ := HookManager.unlinked_hooks_cases hx
  rw [hpar] at hne
  rw [hpar, heq]
  by_cases hc : hook.child = some x
  · rw [if_pos hc, HookManager.unlinked_callee, hvalue, HookManager.unlinked_mem_child hc hx₀]
    rintro q hq rfl
    obtain ⟨P, Q, rfl⟩ := List.append_of_mem (h.toHooked.mem_iff.mpr ⟨hook, hk⟩)
    have hlast := (h.linked P q Q rfl).1
    rw [HookManager.parent, hk, Option.bind_some, hq] at hlast
    exact (LinkedList.notMem_of_nodup h.toHooked.nodup).1 (List.mem_of_getLast? hlast.symm)
  · rw [if_neg hc] at hne ⊢
    rw [HookManager.unlinked_callee, HookManager.unlinked_mem_of_ne, h.orig hx₀ hne]
    · intro c child hc' hchild' horig
      exact hc (hc'.trans (congrArg some (h.orig_inj hchild' hx₀ horig.symm)))
    · rintro q hq rfl
      refine hc ((h.toHooked.child_iff hk (h.toHooked.mem_iff.mpr ⟨hook₀, hx₀⟩)).mpr ?_)
      rw [HookManager.parent, hx₀, Option.bind_some, hq]

theorem unlink (h : t.Inv s (P ++ k :: Q)) (hk : s.hooks k = some hook)
    (hvalue : s.callee t.symbol hook.parent = some value)
    (hdelete : s.deleteHook k = some (s.unlinked k hook value)) :
    t.Inv (s.unlinked k hook value) (P ++ Q) := by
  have hunlinked := h.toHooked.unlink hk hdelete
  have horiginal : ((s.unlinked k hook value).symbols t.symbol).original =
      (s.symbols t.symbol).original := HookManager.unlinked_original _
  refine ⟨hunlinked.toIndexed, hunlinked.toChained, hunlinked.others, hunlinked.hook_symbol,
    hunlinked.lt_nextHook, fun {x hook'} hx => ?_, hunlinked.orig_slot,
    fun {x hook₁ y hook₂} hx hy horig => ?_, fun {x hook'} hx hne => ?_, fun {r} h0 hr => ?_,
    fun hne => ?_⟩
  · obtain ⟨-, hook₀, hx₀, -, -, heq, -⟩ := HookManager.unlinked_hooks_cases hx
    rw [heq]
    exact h.replacement hx₀
  · obtain ⟨-, hook₁', hx₀, -, -, -, heq⟩ := HookManager.unlinked_hooks_cases hx
    obtain ⟨-, hook₂', hy₀, -, -, -, heq'⟩ := HookManager.unlinked_hooks_cases hy
    exact h.orig_inj hx₀ hy₀ (heq.symm.trans (horig.trans heq'))
  · rw [horiginal] at hne
    exact h.orig_unlinked hk hvalue hx hne
  · rw [horiginal] at h0
    rw [HookManager.unlinked_mem_of_ne, h.unknown h0 hr]
    exact fun c child _ hc => h.orig_slot hc hr
  · rw [horiginal] at hne ⊢
    exact h.known hne

/-! ## Applying the hooks -/

/-- After a pass, a symbol with hooks has its original. -/
theorem original_ne_zero (h : t.Inv s hs)
    (hslot : ∃ r, t.Slot r ∧ HookManager.elfWord (t.start.mem r.addr) ≠ 0)
    (hpass : s.Pass (s.visits p order) [] s') (hs_ne : hs ≠ []) :
    (s'.symbols t.symbol).original ≠ 0 := by
  by_cases horig : (s.symbols t.symbol).original = 0
  · obtain ⟨r, hr, hne⟩ := hslot
    obtain ⟨k, hk⟩ := Option.isSome_iff_exists.mp (List.getLast?_isSome.mpr hs_ne)
    obtain ⟨hook, hhook⟩ := h.toHooked.mem_iff.mp (List.mem_of_getLast? hk)
    have hred := HookManager.redirection_of_lastHook (h.lastHook.trans hk) hhook
      (h.replacement hhook)
    refine h.toHooked.original_ne_zero hpass ?_ hr (h.unknown horig hr ▸ hne)
    simpa [hred] using h.replacement hhook
  · exact (hpass.original horig).symm ▸ horig

theorem original_of_nil (h : t.Inv s []) (happ : s.Applied s') :
    (s'.symbols t.symbol).original = (s.symbols t.symbol).original := by
  have hred := happ.redirection t.symbol
  have hlast : (s.symbols t.symbol).lastHook = none := h.lastHook
  simpa [HookManager.redirection, happ.lastHook, hlast] using hred

theorem original_slot (h : t.Inv s hs) (hpass : s.Pass (s.visits p order) [] s')
    (hne : (s'.symbols t.symbol).original ≠ 0) :
    ∃ r, t.Slot r ∧ (s'.symbols t.symbol).original = HookManager.elfWord (t.start.mem r.addr) := by
  by_cases horig : (s.symbols t.symbol).original = 0
  · obtain ⟨⟨r, hr, heq⟩, -⟩ := h.toHooked.learned hpass horig hne
    exact ⟨r, hr, by rw [heq, h.unknown horig hr]⟩
  · rw [hpass.original horig]
    exact h.known horig

/-- Without hooks and without an original a pass leaves the slots as they are. -/
theorem slot_start (h : t.Inv s []) (hpass : s.Pass (s.visits p order) [] s')
    (h0 : (s'.symbols t.symbol).original = 0) (hr : t.Slot r) :
    s'.mem r.addr = t.start.mem r.addr := by
  have horig := (h.original_of_nil hpass.toApplied).symm.trans h0
  have hlast : (s.symbols t.symbol).lastHook = none := h.lastHook
  rw [h.toHooked.mem_of_redirection hpass, h.unknown horig hr]
  simp [HookManager.redirection, hlast, horig]

/-- After a pass, every hook knows what to call. -/
theorem orig_pass (h : t.Inv s hs) (hpass : s.Pass (s.visits p order) [] s')
    (hne : (s'.symbols t.symbol).original ≠ 0) (hk : s.hooks k = some hook) :
    s'.callee t.symbol hook.parent = some (s'.mem hook.orig) := by
  -- the word of the hook keeps its value unless this is the first hook, which learns the original
  have hmem : ((s.symbols t.symbol).original = 0 → hook.parent ≠ none) →
      s'.mem hook.orig = s.mem hook.orig := by
    intro hcond
    refine hpass.other (fun w hw sid hhit _ => h.orig_slot hk (h.toHooked.hit hw hhit).2) ?_
    intro sid hlearned ho
    obtain ⟨rfl, k', hook', hhead, hk', horig⟩ := h.toHooked.firstOrig ho
    obtain rfl := h.orig_inj hk' hk horig
    have h0 : (s.symbols t.symbol).original = 0 :=
      not_not.mp fun hne => hlearned (hpass.original hne)
    exact hcond h0 ((h.toHooked.parent_eq_none_iff hk).mpr hhead)
  cases hq : hook.parent with
  | some q =>
    rw [hmem fun _ => by simp [hq], ← h.orig hk (.inl (by simp [hq])), hq,
      HookManager.callee, HookManager.callee, hpass.hooks]
  | none =>
    rw [HookManager.callee, Option.some.injEq]
    by_cases horig : (s.symbols t.symbol).original = 0
    · have hhead := (h.toHooked.parent_eq_none_iff hk).mp hq
      have hfirst : s.firstOrig t.symbol = some hook.orig := by
        rw [HookManager.firstOrig, h.firstHook, hhead, Option.bind_some, hk, Option.map_some]
      exact ((h.toHooked.learned hpass horig hne).2 _ hfirst).symm
    · rw [hmem fun h0 => absurd h0 horig, hpass.original horig]
      have hcallee := h.orig hk (.inr horig)
      rw [hq, HookManager.callee, Option.some.injEq] at hcallee
      exact hcallee

/-- A pass settles the symbol. -/
theorem settled (h : t.Inv s hs)
    (hslot : ∃ r, t.Slot r ∧ HookManager.elfWord (t.start.mem r.addr) ≠ 0)
    (hpass : s.Pass (s.visits p order) [] s') : t.Settled s' t.symbol hs := by
  have hdone : ∀ {r v}, t.Slot r → s.redirection t.symbol = some v → v ≠ 0 →
      s'.mem r.addr = v := h.toHooked.mem_slot hpass
  have hnil : ∀ {hs : List HookId}, hs.getLast? = none → hs = [] := List.getLast?_eq_none_iff.mp
  refine ⟨h.toHooked.chained_applied hpass.toApplied, fun {r k hook} hr hlast hk => ?_,
    fun {r} hr hlast hne => ?_, fun {r} hr hlast h0 => ?_, fun {k hook} hmem hk => ?_,
    h.original_ne_zero hslot hpass, h.original_slot hpass⟩
  · rw [hpass.lastHook] at hlast
    rw [hpass.hooks] at hk
    exact hdone hr (HookManager.redirection_of_lastHook hlast hk (h.replacement hk))
      (h.replacement hk)
  · rw [hpass.lastHook] at hlast
    obtain rfl := hnil (h.lastHook ▸ hlast)
    have heq := h.original_of_nil hpass.toApplied
    rw [heq] at hne ⊢
    exact hdone hr (by simp [HookManager.redirection, hlast]) hne
  · rw [hpass.lastHook] at hlast
    obtain rfl := hnil (h.lastHook ▸ hlast)
    exact h.slot_start hpass h0 hr
  · rw [hpass.hooks] at hk
    exact h.orig_pass hpass (h.original_ne_zero hslot hpass (List.ne_nil_of_mem hmem)) hk

/-- A pass keeps the invariant. -/
theorem pass (h : t.Inv s hs)
    (hslot : ∃ r, t.Slot r ∧ HookManager.elfWord (t.start.mem r.addr) ≠ 0)
    (hpass : s.Pass (s.visits p order) [] s') : t.Inv s' hs := by
  have happlied := h.toHooked.applied hpass.toApplied
  have hsettled := h.settled hslot hpass
  refine ⟨happlied.toIndexed, happlied.toChained, happlied.others, happlied.hook_symbol,
    happlied.lt_nextHook, ?_, happlied.orig_slot, ?_, fun {k hook} hk _ => ?_,
    fun {r} h0 hr => ?_, hsettled.original_slot⟩
  · rw [hpass.hooks]
    exact h.replacement
  · rw [hpass.hooks]
    exact h.orig_inj
  · exact hsettled.orig (happlied.mem_iff.mpr ⟨hook, hk⟩) hk
  · refine hsettled.slot_start hr ?_ h0
    rw [hsettled.lastHook, List.getLast?_eq_none_iff]
    exact not_not.mp fun hne => hsettled.original hne h0

end Inv

/-! ## Runs -/

/-- The states of a run: the symbol is not hooked yet, or the invariant holds. -/
def Reached (t : Target p) (s : HookManager) : Prop := s = t.start ∨ ∃ hs, t.Inv s hs

theorem Reached.createHook (h : t.Reached s) (hok : t.HookOk s v o) :
    ∃ s', step p s (.createHook t.lib t.symbolIndex v o) = some s' ∧ t.Reached s' := by
  rcases h with rfl | ⟨hs, h⟩
  · have h := Inv.withSymbol t
    have hok' : t.HookOk t.entered v o := by
      refine ⟨hok.replacement, hok.slot, hok.orig, fun hsid _ => ?_⟩
      cases h.key.symm.trans hsid
      exact .inl (Hooked.withSymbol_original t)
    exact ⟨_, t.step_createHook_start, .inr ⟨_, h.link hok'⟩⟩
  · exact ⟨_, h.toHooked.step_createHook, .inr ⟨_, h.link hok⟩⟩

theorem Reached.step (h : t.Reached s)
    (hslot : ∃ r, t.Slot r ∧ HookManager.elfWord (t.start.mem r.addr) ≠ 0)
    (hok : t.CallOk s c) : ∃ s', step p s c = some s' ∧ t.Reached s' := by
  cases c with
  | addLibrary l addr => exact hok.elim
  | removeLibrary l => exact hok.elim
  | createHook l j v o =>
    obtain ⟨rfl, rfl, hok⟩ := hok
    exact h.createHook hok
  | createHookByName l name v o =>
    obtain ⟨rfl, hj, hok⟩ := hok
    rw [HookManager.step_createHookByName, hj]
    split
    · exact h.createHook hok
    · exact ⟨s, rfl, h⟩
  | deleteHook k =>
    obtain ⟨hook, hk⟩ := Option.ne_none_iff_exists'.mp hok
    rcases h with rfl | ⟨hs, h⟩
    · cases (t.unhooked.hooks k).symm.trans hk
    · obtain ⟨P, Q, rfl⟩ := List.append_of_mem (h.toHooked.mem_iff.mpr ⟨hook, hk⟩)
      obtain ⟨value, hvalue, hdelete⟩ := h.toHooked.deleteHook_eq hk
      exact ⟨_, hdelete, .inr ⟨_, h.unlink hk hvalue hdelete⟩⟩
  | applyHooks order =>
    rcases h with rfl | ⟨hs, h⟩
    · exact ⟨_, t.applyHooks_start order, .inl rfl⟩
    · obtain ⟨s', hs', hpass⟩ := HookManager.applyHooks_pass order (h.toHooked.ready order)
      exact ⟨s', hs', .inr ⟨hs, h.pass hslot hpass⟩⟩

end Target

end McpeLauncher.Hook