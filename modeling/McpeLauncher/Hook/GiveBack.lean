import McpeLauncher.Hook.Target

/-!
# Giving back the original

The first call of `applyHooks` that redirects the slots of a symbol should tell the first hook what
was in them, and once there are no hooks left the next call should put that back. The code has one
original for all slots of a symbol, takes `0` for an original that is not known, and reads the slot
as an `ElfW(Word)` although it writes a `size_t`. So it gives back what it replaced if and only if
all slots of the symbol have the same content, which is not null and fits into 32 bits
(`givesBack_iff`).
-/

namespace McpeLauncher.Hook
open HookManager (elfWord)

namespace Target

variable {p : Process} (t : Target p)

/-- The call is one of `createHook` for the symbol, where the word for the original is not one of
its slots, `deleteHook` of a live hook and `applyHooks`. -/
def CallsSymbol (s : HookManager) : Call → Prop
  | .createHook l j _ orig => l = t.lib ∧ j = t.symbolIndex ∧ ∀ r, t.Slot r → r.addr ≠ orig
  | .createHookByName l name _ orig => l = t.lib ∧
      (p.image l).getSymbolIndex name = t.symbolIndex ∧ ∀ r, t.Slot r → r.addr ≠ orig
  | .deleteHook k => s.hooks k ≠ none
  | .applyHooks _ => True
  | .addLibrary _ _ | .removeLibrary _ => False

/-- The call does not redirect the slots of the symbol. -/
def NotRedirecting (s : HookManager) (c : Call) : Prop :=
  ∀ order, c = .applyHooks order →
    ∀ sid, s.hookedSymbols t.addr t.symbolIndex = some sid → s.redirection sid = some 0

/-- When `applyHooks` redirects the slots for the first time, the first hook is told what was in the
slot `r`; when it finds that there are no hooks, then this is in the slot again. -/
def GivesBack (r : Reloc) : Prop :=
  ∀ calls, Runs.Meets (step p) t.CallsSymbol t.start calls → ∀ order, ∃ s s',
    Runs.run (step p) t.start calls = some s ∧ step p s (.applyHooks order) = some s' ∧
    ∀ sid, s.hookedSymbols t.addr t.symbolIndex = some sid →
      (Runs.Meets (step p) t.NotRedirecting t.start calls → s.redirection sid ≠ some 0 →
        ∃ k hook, (s.symbols sid).firstHook = some k ∧ s.hooks k = some hook ∧
          s'.mem hook.orig = t.start.mem r.addr) ∧
      ((∀ k hook, s.hooks k = some hook → hook.symbol ≠ sid) →
        s'.mem r.addr = t.start.mem r.addr)

/-! ## The steps -/

/-- What a call does once the symbol is hooked: nothing, or it creates a hook, deletes one or goes
through the slots. -/
inductive Stepped (s : HookManager) : List HookId → Call → HookManager → List HookId → Prop
  | unchanged : Stepped s hs c s hs
  | created : (∀ r, t.Slot r → r.addr ≠ o) →
      Stepped s hs c (s.linked t.symbol v o) (hs ++ [s.nextHook])
  | deleted : s.hooks k = some hook → s.deleteHook k = some (s.unlinked k hook value) →
      Stepped s (P ++ k :: Q) c (s.unlinked k hook value) (P ++ Q)
  | applied : s.Pass (s.visits p order) [] s' → Stepped s hs (.applyHooks order) s' hs

variable {t} {s s' : HookManager} {hs hs' : List HookId}

theorem Hooked.step (h : t.Hooked s hs) (hok : t.CallsSymbol s c) :
    ∃ s' hs', step p s c = some s' ∧ t.Stepped s hs c s' hs' := by
  cases c with
  | addLibrary l addr => exact hok.elim
  | removeLibrary l => exact hok.elim
  | createHook l j v o =>
    obtain ⟨rfl, rfl, ho⟩ := hok
    exact ⟨_, _, h.step_createHook, .created ho⟩
  | createHookByName l name v o =>
    obtain ⟨rfl, hj, ho⟩ := hok
    rw [HookManager.step_createHookByName]
    split
    · exact ⟨_, _, hj ▸ h.step_createHook, .created ho⟩
    · exact ⟨s, hs, rfl, .unchanged⟩
  | deleteHook k =>
    obtain ⟨hook, hk⟩ := Option.ne_none_iff_exists'.mp hok
    obtain ⟨P, Q, rfl⟩ := List.append_of_mem (h.mem_iff.mpr ⟨hook, hk⟩)
    obtain ⟨value, -, hdelete⟩ := h.deleteHook_eq hk
    exact ⟨_, _, hdelete, .deleted hk hdelete⟩
  | applyHooks order =>
    obtain ⟨s', hs', hpass⟩ := HookManager.applyHooks_pass order (h.ready order)
    exact ⟨s', hs, hs', .applied hpass⟩

theorem Hooked.stepped (h : t.Hooked s hs) (hst : t.Stepped s hs c s' hs') : t.Hooked s' hs' := by
  cases hst with
  | unchanged => exact h
  | created ho => exact h.link ho
  | deleted hk hdelete => exact h.unlink hk hdelete
  | applied hpass => exact h.applied hpass.toApplied

/-- Before the symbol is hooked, a call does nothing, or what it does after the symbol has been
entered. -/
theorem step_start (hok : t.CallsSymbol t.start c) :
    step p t.start c = some t.start ∨
      step p t.start c = step p t.entered c ∧ t.CallsSymbol t.entered c := by
  have hcreate : ∀ {v o}, step p t.start (.createHook t.lib t.symbolIndex v o) =
      step p t.entered (.createHook t.lib t.symbolIndex v o) := fun {v o} =>
    t.step_createHook_start.trans (Hooked.withSymbol t).step_createHook.symm
  cases c with
  | addLibrary l addr => exact hok.elim
  | removeLibrary l => exact hok.elim
  | createHook l j v o =>
    obtain ⟨rfl, rfl, ho⟩ := hok
    exact .inr ⟨hcreate, rfl, rfl, ho⟩
  | createHookByName l name v o =>
    obtain ⟨rfl, hj, ho⟩ := hok
    rw [HookManager.step_createHookByName, HookManager.step_createHookByName, hj]
    split
    next hif =>
      refine .inr ⟨?_, rfl, hj, ho⟩
      rw [if_pos (by exact hif)]
      exact hcreate
    · exact .inl rfl
  | deleteHook k => exact absurd (t.unhooked.hooks k) hok
  | applyHooks order => exact .inl (t.applyHooks_start order)

theorem notRedirecting_entered (t : Target p) (c : Call) : t.NotRedirecting t.entered c := by
  intro order _ sid hsid
  obtain rfl := Option.some.inj ((Hooked.withSymbol t).key.symm.trans hsid)
  rw [HookManager.redirection, (Hooked.withSymbol t).lastHook, Hooked.withSymbol_original]
  rfl

/-- **The run rule**: what holds before the symbol is hooked and of the hooked symbol is kept by
runs if the steps keep it. -/
theorem run_hooked {C : HookManager → Call → Prop} {I : HookManager → List HookId → Prop}
    (hC : ∀ s c, C s c → t.CallsSymbol s c) (hentered : I t.entered [])
    (hstart : ∀ c, C t.start c → t.CallsSymbol t.entered c → C t.entered c)
    (hstep : ∀ s hs c s' hs', t.Hooked s hs → I s hs → C s c → t.Stepped s hs c s' hs' → I s' hs')
    {calls : List Call} (hok : Runs.Meets (step p) C t.start calls) :
    ∃ s, Runs.run (step p) t.start calls = some s ∧
      (s = t.start ∨ ∃ hs, t.Hooked s hs ∧ I s hs) := by
  have hhooked : ∀ s hs c, t.Hooked s hs → I s hs → C s c →
      ∃ s', step p s c = some s' ∧ (s' = t.start ∨ ∃ hs, t.Hooked s' hs ∧ I s' hs) := by
    intro s hs c h hI hc
    obtain ⟨s', hs', hs, hst⟩ := h.step (hC s c hc)
    exact ⟨s', hs, .inr ⟨hs', h.stepped hst, hstep _ _ _ _ _ h hI hc hst⟩⟩
  refine Runs.run_inv (fun s c h hc => ?_) (.inl rfl) hok
  rcases h with rfl | ⟨hs, h, hI⟩
  · rcases step_start (hC _ c hc) with hs | ⟨hs, hcalls⟩
    · exact ⟨_, hs, .inl rfl⟩
    · rw [hs]
      exact hhooked _ _ c (Hooked.withSymbol t) hentered (hstart c hc hcalls)
  · exact hhooked s hs c h hI hc

/-- As long as no slots have been redirected, the original of the symbol is not known. -/
theorem original_of_stepped (h0 : (s.symbols t.symbol).original = 0) (hkey : t.Hooked s hs)
    (hc : t.NotRedirecting s c) (hst : t.Stepped s hs c s' hs') :
    (s'.symbols t.symbol).original = 0 := by
  cases hst with
  | unchanged => exact h0
  | created => exact (HookManager.linked_original _).trans h0
  | deleted => exact (HookManager.unlinked_original _).trans h0
  | applied hpass =>
    have hred : s.redirection t.symbol = some 0 := hc _ rfl _ hkey.key
    exact HookManager.original_of_redirection ((hpass.redirection _).trans hred)

/-- Before the first call that redirects the slots, the original is not known. -/
theorem original_of_run (hok : Runs.Meets (step p) t.CallsSymbol t.start calls)
    (hfirst : Runs.Meets (step p) t.NotRedirecting t.start calls)
    (hs : Runs.run (step p) t.start calls = some s) (h : t.Hooked s hs') :
    (s.symbols t.symbol).original = 0 := by
  obtain ⟨s₁, hs₁, hcases⟩ := run_hooked
    (C := fun s c => t.CallsSymbol s c ∧ t.NotRedirecting s c)
    (I := fun s _ => (s.symbols t.symbol).original = 0)
    (fun _ _ hc => hc.1) (Hooked.withSymbol_original t)
    (fun c _ hcalls => ⟨hcalls, notRedirecting_entered t c⟩)
    (fun s hs c s' hs' h h0 hc hst => original_of_stepped h0 h hc.2 hst) (hok.and hfirst)
  obtain rfl := Option.some.inj (hs.symm.trans hs₁)
  rcases hcases with rfl | ⟨hs, -, h0⟩
  · cases (t.unhooked.hookedSymbols ..).symm.trans h.key
  · exact h0

/-! ## Slots with one small content -/

/-- All slots have the content `c`, which is not null and fits into an `ElfW(Word)`. -/
def OneContent (t : Target p) (c : Nat) : Prop :=
  0 < c ∧ c < UInt32.size ∧ ∀ r, t.Slot r → t.start.mem r.addr = c

/-- The content is in the slots as long as it is not known, and then it is the original. -/
structure Kept (t : Target p) (c : Nat) (s : HookManager) : Prop where
  unknown : (s.symbols t.symbol).original = 0 → t.Slot r → s.mem r.addr = c
  known : (s.symbols t.symbol).original ≠ 0 → (s.symbols t.symbol).original = c

theorem OneContent.entered (hc : t.OneContent c) : t.Kept c t.entered :=
  ⟨fun _ hr => hc.2.2 _ hr, fun hne => absurd (Hooked.withSymbol_original t) hne⟩

theorem Kept.frame (hk : t.Kept c s)
    (horig : (s'.symbols t.symbol).original = (s.symbols t.symbol).original)
    (hmem : ∀ r, t.Slot r → s'.mem r.addr = s.mem r.addr) : t.Kept c s' := by
  refine ⟨fun {r} h0 hr => ?_, fun hne => ?_⟩
  · rw [hmem r hr]
    exact hk.unknown (horig ▸ h0) hr
  · rw [horig] at hne ⊢
    exact hk.known hne

theorem Kept.pass (hc : t.OneContent c) (hr₀ : t.Slot r₀) (h : t.Hooked s hs) (hk : t.Kept c s)
    (hpass : s.Pass (s.visits p order) [] s') : t.Kept c s' := by
  have hword : elfWord c = c := Nat.mod_eq_of_lt hc.2.1
  by_cases h0 : (s.symbols t.symbol).original = 0
  · by_cases hred : s.redirection t.symbol = some 0
    · refine hk.frame ?_ fun r _ => h.mem_of_redirection hpass hred r.addr
      rw [h0, HookManager.original_of_redirection ((hpass.redirection _).trans hred)]
    · have hne : (s'.symbols t.symbol).original ≠ 0 := by
        refine h.original_ne_zero hpass hred hr₀ ?_
        rw [hk.unknown h0 hr₀, hword]
        exact Nat.ne_of_gt hc.1
      obtain ⟨⟨r, hr, horig⟩, -⟩ := h.learned hpass h0 hne
      refine ⟨fun h0' => absurd h0' hne, fun _ => ?_⟩
      rw [horig, hk.unknown h0 hr, hword]
  · have horig := hpass.original h0
    exact ⟨fun h0' => absurd (horig.symm.trans h0') h0, fun _ => horig.trans (hk.known h0)⟩

theorem Kept.stepped (hc : t.OneContent c) (hr₀ : t.Slot r₀) (h : t.Hooked s hs)
    (hk : t.Kept c s) (hst : t.Stepped s hs call s' hs') : t.Kept c s' := by
  cases hst with
  | unchanged => exact hk
  | created ho =>
    exact hk.frame (HookManager.linked_original _) fun r hr => Hooked.linked_mem_slot ho hr
  | deleted => exact hk.frame (HookManager.unlinked_original _) fun r hr => h.unlinked_mem_slot hr
  | applied hpass => exact hk.pass hc hr₀ h hpass

/-- A symbol without hooks that is gone through has its content in its slots again. -/
theorem Kept.mem_slot_of_nil (h : t.Hooked s []) (hk : t.Kept c s') (hr : t.Slot r)
    (hpass : s.Pass (s.visits p order) [] s') : s'.mem r.addr = c := by
  by_cases h0 : (s'.symbols t.symbol).original = 0
  · exact hk.unknown h0 hr
  · refine (h.mem_slot hpass hr ?_ h0).trans (hk.known h0)
    rw [← hpass.redirection, HookManager.redirection, hpass.lastHook, h.lastHook]
    rfl

/-- A symbol whose slots are redirected for the first time has a first hook, which is told. -/
theorem Kept.mem_orig (h : t.Hooked s hs) (h0 : (s.symbols t.symbol).original = 0)
    (hk : t.Kept c s') (hne : (s'.symbols t.symbol).original ≠ 0)
    (hred : s.redirection t.symbol ≠ some 0) (hpass : s.Pass (s.visits p order) [] s') :
    ∃ k hook, (s.symbols t.symbol).firstHook = some k ∧ s.hooks k = some hook ∧
      s'.mem hook.orig = c := by
  cases hs with
  | nil =>
    refine absurd ?_ hred
    rw [HookManager.redirection, h.lastHook, h0]
    rfl
  | cons k hs =>
    obtain ⟨hook, hhook⟩ := h.mem_iff.mp (.head hs)
    have hfirst : (s.symbols t.symbol).firstHook = some k := h.firstHook
    have ho : s.firstOrig t.symbol = some hook.orig := by
      rw [HookManager.firstOrig, hfirst, Option.bind_some, hhook, Option.map_some]
    exact ⟨k, hook, hfirst, hhook, ((h.learned hpass h0 hne).2 _ ho).trans (hk.known hne)⟩

theorem givesBack_of_oneContent (hc : t.OneContent c) (hr : t.Slot r) : t.GivesBack r := by
  intro calls hok order
  obtain ⟨s, hs, hcases⟩ := run_hooked (I := fun s _ => t.Kept c s) (fun _ _ => id) hc.entered
    (fun _ _ => id) (fun s hs c s' hs' h hk _ hst => hk.stepped hc hr h hst) hok
  rcases hcases with rfl | ⟨hooks, h, hk⟩
  · refine ⟨_, _, hs, t.applyHooks_start order, fun sid hsid => ?_⟩
    cases (t.unhooked.hookedSymbols ..).symm.trans hsid
  · obtain ⟨s', hs', hpass⟩ := HookManager.applyHooks_pass order (h.ready order)
    have hk' := hk.pass hc hr h hpass
    refine ⟨s, s', hs, hs', fun sid hsid => ?_⟩
    obtain rfl := Option.some.inj (h.key.symm.trans hsid)
    rw [hc.2.2 r hr]
    refine ⟨fun hfirst hred => ?_, fun hnone => ?_⟩
    · have h0 := original_of_run hok hfirst hs h
      refine hk'.mem_orig h h0 (h.original_ne_zero hpass hred hr ?_) hred hpass
      rw [hk.unknown h0 hr, elfWord, Nat.mod_eq_of_lt hc.2.1]
      exact Nat.ne_of_gt hc.1
    · obtain rfl : hooks = [] := by
        refine List.eq_nil_iff_forall_not_mem.mpr fun k hk => ?_
        obtain ⟨hook, hhook, hsymbol⟩ := h.live.mp hk
        exact hnone k hook hhook hsymbol
      exact hk'.mem_slot_of_nil h hr hpass

/-! ## Slots with other contents -/

/-- There are words that are not slots. -/
theorem exists_word (t : Target p) : ∃ o, ∀ r, t.Slot r → r.addr ≠ o := by
  let slots := t.start.libs.keys.flatMap fun M => (p.image M).recorded.map Reloc.addr
  refine ⟨slots.foldr Nat.max 0 + 1, fun r ⟨M, b, hM, hr, _⟩ hro => ?_⟩
  have hmem : r.addr ∈ slots := List.mem_flatMap.mpr ⟨M,
    AList.lookup_isSome.mp (by rw [hM]; rfl), List.mem_map_of_mem hr⟩
  exact Nat.not_succ_le_self _ (hro ▸ HookManager.le_foldr_max hmem)

/-- The state after a hook has been created with the replacement `1`. -/
def hookedOnce (t : Target p) (o : Addr) : HookManager := t.entered.linked t.symbol 1 o

theorem step_hookedOnce (t : Target p) (o : Addr) :
    step p t.start (.createHook t.lib t.symbolIndex 1 o) = some (t.hookedOnce o) :=
  t.step_createHook_start

theorem hookedOnce_hooked (ho : ∀ r, t.Slot r → r.addr ≠ o) :
    t.Hooked (t.hookedOnce o) [t.start.nextHook] :=
  (Hooked.withSymbol t).link ho

theorem hookedOnce_hooks :
    (t.hookedOnce o).hooks t.start.nextHook = some ⟨t.symbol, none, none, 1, o⟩ := by
  rw [hookedOnce, show t.start.nextHook = t.entered.nextHook from rfl,
    HookManager.linked_hooks_nextHook, (Hooked.withSymbol t).nextParent]
  rfl

theorem hookedOnce_redirection (ho : ∀ r, t.Slot r → r.addr ≠ o) :
    (t.hookedOnce o).redirection t.symbol = some 1 :=
  HookManager.redirection_of_lastHook (hookedOnce_hooked ho).lastHook hookedOnce_hooks
    Nat.one_ne_zero

theorem hookedOnce_firstOrig (ho : ∀ r, t.Slot r → r.addr ≠ o) :
    (t.hookedOnce o).firstOrig t.symbol = some o := by
  have hfirst : ((t.hookedOnce o).symbols t.symbol).firstHook = some t.start.nextHook :=
    (hookedOnce_hooked ho).firstHook
  rw [HookManager.firstOrig, hfirst, Option.bind_some, hookedOnce_hooks, Option.map_some]

theorem meets_hookedOnce {C : HookManager → Call → Prop}
    (hC : C t.start (.createHook t.lib t.symbolIndex 1 o)) {calls : List Call}
    (h : Runs.Meets (step p) C (t.hookedOnce o) calls) :
    Runs.Meets (step p) C t.start (.createHook t.lib t.symbolIndex 1 o :: calls) :=
  .cons hC (t.step_hookedOnce o) h

theorem GivesBack.mem_orig (h : t.GivesBack r) (ho : ∀ r, t.Slot r → r.addr ≠ o)
    (hs' : step p (t.hookedOnce o) (.applyHooks []) = some s') : s'.mem o = t.start.mem r.addr := by
  have hhooked := hookedOnce_hooked ho
  obtain ⟨s, s'', hs, happly, hback⟩ := h [.createHook t.lib t.symbolIndex 1 o]
    (meets_hookedOnce ⟨rfl, rfl, ho⟩ trivial) []
  rw [Runs.run_cons, step_hookedOnce] at hs
  obtain rfl := Option.some.inj hs
  obtain rfl := Option.some.inj (hs'.symm.trans happly)
  obtain ⟨k, hook, hfirst, hhook, horig⟩ := (hback _ hhooked.key).1
    (meets_hookedOnce (fun _ hc => by cases hc) trivial)
    (by simp [hookedOnce_redirection ho])
  obtain rfl : t.start.nextHook = k := Option.some.inj (hhooked.firstHook.symm.trans hfirst)
  cases hookedOnce_hooks.symm.trans hhook
  exact horig

/-- If no original has been found, then the replacement stays in the slot. -/
theorem GivesBack.eq_one (h : t.GivesBack r) (hr : t.Slot r) (ho : ∀ r, t.Slot r → r.addr ≠ o)
    (hs' : step p (t.hookedOnce o) (.applyHooks []) = some s')
    (hpass : (t.hookedOnce o).Pass ((t.hookedOnce o).visits p []) [] s')
    (h0 : (s'.symbols t.symbol).original = 0) : t.start.mem r.addr = 1 := by
  have hhooked := (hookedOnce_hooked ho).applied hpass.toApplied
  have hhook : s'.hooks t.start.nextHook = some ⟨t.symbol, none, none, 1, o⟩ := by
    rw [hpass.hooks, hookedOnce_hooks]
  have hmem : s'.mem r.addr = 1 :=
    (hookedOnce_hooked ho).mem_slot hpass hr (hookedOnce_redirection ho) Nat.one_ne_zero
  obtain ⟨value, -, hdelete⟩ := hhooked.deleteHook_eq hhook
  have hdeleted := hhooked.unlink (P := []) (Q := []) hhook hdelete
  obtain ⟨s, s'', hs, happly, hback⟩ :=
    h [.createHook t.lib t.symbolIndex 1 o, .applyHooks [], .deleteHook t.start.nextHook]
      (meets_hookedOnce ⟨rfl, rfl, ho⟩ (.cons trivial hs' ⟨by simp [CallsSymbol, hhook],
        fun _ _ => trivial⟩)) []
  rw [Runs.run_cons, step_hookedOnce, Option.bind_some, Runs.run_cons, hs', Option.bind_some,
    Runs.run_cons, step, hdelete] at hs
  obtain rfl := Option.some.inj hs
  obtain ⟨s₁, hs₁, hpass'⟩ := HookManager.applyHooks_pass [] (hdeleted.ready [])
  obtain rfl := Option.some.inj (hs₁.symm.trans happly)
  have hback := (hback _ hdeleted.key).2 fun k hook hk hsymbol =>
    List.not_mem_nil (hdeleted.live.mpr ⟨hook, hk, hsymbol⟩)
  rw [← hback, hdeleted.mem_of_redirection hpass', hhooked.unlinked_mem_slot hr, hmem]
  rw [HookManager.redirection, hdeleted.lastHook]
  exact congrArg some ((HookManager.unlinked_original _).trans h0)

/-- **What hooks give back**: what was in the slots, if and only if all of them have the same
content, which is not null and fits into an `ElfW(Word)`. -/
theorem givesBack_iff {p : Process} (t : Target p) :
    (∀ r, t.Slot r → t.GivesBack r) ↔ ∃ c, t.OneContent c := by
  refine ⟨fun h => ?_, fun ⟨c, hc⟩ r hr => givesBack_of_oneContent hc hr⟩
  obtain ⟨o, ho⟩ := t.exists_word
  have hhooked := hookedOnce_hooked ho
  obtain ⟨s', hs', hpass⟩ := HookManager.applyHooks_pass [] (hhooked.ready [])
  have horig : ∀ r, t.Slot r → t.start.mem r.addr = s'.mem o := fun r hr =>
    ((h r hr).mem_orig ho hs').symm
  by_cases hslot : ∃ r, t.Slot r
  · obtain ⟨r, hr⟩ := hslot
    have h0 : ((t.hookedOnce o).symbols t.symbol).original = 0 :=
      (HookManager.linked_original _).trans (Hooked.withSymbol_original t)
    by_cases hne : (s'.symbols t.symbol).original = 0
    · -- nothing was found in the slots, but then they do not have the replacement either
      have hone := (h r hr).eq_one hr ho hs' hpass hne
      refine absurd hne (hhooked.original_ne_zero hpass ?_ hr ?_)
      · simp [hookedOnce_redirection ho]
      · rw [hookedOnce, Hooked.linked_mem_slot ho hr]
        exact ne_of_eq_of_ne (congrArg elfWord hone) (by decide)
    · obtain ⟨⟨r₀, -, hr₀⟩, htold⟩ := hhooked.learned hpass h0 hne
      have ho' : s'.mem o = (s'.symbols t.symbol).original := htold o (hookedOnce_firstOrig ho)
      refine ⟨s'.mem o, ?_, ?_, horig⟩
      · rw [ho']
        exact Nat.pos_of_ne_zero hne
      · rw [ho', hr₀]
        exact Nat.mod_lt _ (by decide)
  · exact ⟨1, Nat.one_pos, by decide, fun r hr => absurd ⟨r, hr⟩ hslot⟩

end Target

/-- If there is an address above 4 GiB in the slot, then the hook is told its lower half. -/
theorem not_givesBack_fooWith :
    ∃ r, (fooWith 0x7F0000001000).Slot r ∧ r.type.supported = true ∧
      (fooWith 0x7F0000001000).start.mem r.addr = 0x7F0000001000 ∧
      ¬(fooWith 0x7F0000001000).GivesBack r := by
  refine ⟨_, fooWith_slot.mpr rfl, rfl, rfl, fun h => ?_⟩
  have ho : ∀ r, (fooWith 0x7F0000001000).Slot r → r.addr ≠ 200 := fun r hr => by
    rw [fooWith_slot.mp hr]
    decide
  have horig := h.mem_orig ho rfl
  revert horig
  decide

end McpeLauncher.Hook
