import McpeLauncher.Hook.Registration

/-!
# One pass over the relocations

`applyHooks` visits the recorded relocations of the registered libraries, each slot once. What it
writes to the slots of a symbol (`redirection`) does not change on the way. `Pass` collects what it
does to the slots, to the originals of the symbols and to the rest of the memory.
-/

namespace McpeLauncher.Hook
open Function (update)

namespace HookManager

variable {p : Process} {s s' s₀ : HookManager}

/-! ## The visits -/

def applySlot (s : HookManager) (w : Addr × Reloc) : Option HookManager := applyReloc w.1 s w.2

def libVisits (p : Process) (libs : AList fun _ : Handle => Addr) (h : Handle) :
    List (Addr × Reloc) :=
  match libs.lookup h with
  | none => []
  | some a => (p.image h).recorded.map (a, ·)

/-- The relocations that `applyHooks` visits, in order. -/
def visits (p : Process) (s : HookManager) (order : List Handle) : List (Addr × Reloc) :=
  (s.iteration order).flatMap (libVisits p s.libs)

theorem run_applyReloc (a : Addr) (rs : List Reloc) :
    Runs.run (applyReloc a) s rs = Runs.run applySlot s (rs.map (a, ·)) := by
  induction rs generalizing s with
  | nil => rfl
  | cons r rs ih =>
    rw [Runs.run_cons, List.map_cons, Runs.run_cons]
    exact congrArg _ (funext fun _ => ih)

theorem applyLibHooks_eq (h : Handle) :
    s.applyLibHooks p h = Runs.run applySlot s (libVisits p s.libs h) := by
  rw [applyLibHooks, libVisits]
  cases s.libs.lookup h with
  | none => rfl
  | some a =>
    simp only [Image.recorded, List.map_append, Runs.run_append, ← run_applyReloc]
    rfl

theorem run_applyLibHooks (hs : List Handle) :
    Runs.run (applyLibHooks p) s hs = Runs.run applySlot s (hs.flatMap (libVisits p s.libs)) := by
  induction hs generalizing s with
  | nil => rfl
  | cons h hs ih =>
    rw [Runs.run_cons, List.flatMap_cons, Runs.run_append, ← applyLibHooks_eq]
    apply Option.bind_congr
    intro s' hs'
    rw [ih, (applyLibHooks_frame hs').libs]

theorem applyHooks_eq (order : List Handle) :
    s.applyHooks p order = Runs.run applySlot s (s.visits p order) :=
  run_applyLibHooks _

theorem iteration_perm (s : HookManager) (order : List Handle) :
    (s.iteration order).Perm s.libs.keys := by
  rw [iteration]
  split
  · exact List.isPerm_iff.mp ‹_›
  · exact .refl _

theorem mem_libVisits {libs : AList fun _ : Handle => Addr} : w ∈ libVisits p libs h ↔
    libs.lookup h = some w.1 ∧ w.2 ∈ (p.image h).recorded := by
  rw [libVisits]
  cases libs.lookup h with
  | none => simp
  | some a =>
    obtain ⟨b, r⟩ := w
    simp [and_comm]

theorem mem_visits : w ∈ s.visits p order ↔
    ∃ h, s.libs.lookup h = some w.1 ∧ w.2 ∈ (p.image h).recorded := by
  simp only [visits, List.mem_flatMap, mem_libVisits, (iteration_perm s order).mem_iff]
  refine exists_congr fun h => and_iff_right_of_imp fun hw => ?_
  exact AList.lookup_isSome.mp (by simp [hw.1])

theorem recorded_sublist (m : Image) : m.recorded.Sublist m.relocs :=
  (List.sublist_append_left m.rel m.rela).append_right m.pltrel

theorem visits_nodup (s : HookManager) (order : List Handle) :
    ((s.visits p order).map fun w => w.2.addr).Nodup := by
  rw [visits, List.map_flatMap, List.nodup_flatMap]
  refine ⟨fun h _ => ?_, ?_⟩
  · rw [libVisits]
    split
    · exact List.nodup_nil
    · rw [List.map_map]
      exact (p.slots_nodup h).sublist ((recorded_sublist _).map _)
  · have hkeys : (s.iteration order).Nodup :=
      (iteration_perm s order).nodup_iff.mpr s.libs.keys_nodup
    refine hkeys.imp fun {h h'} hne x hx hx' => ?_
    obtain ⟨w, hw, rfl⟩ := List.mem_map.mp hx
    obtain ⟨w', hw', haddr⟩ := List.mem_map.mp hx'
    exact p.slots_disjoint h h' hne w.2 ((recorded_sublist _).subset (mem_libVisits.mp hw).2) w'.2
      ((recorded_sublist _).subset (mem_libVisits.mp hw').2) haddr.symm

/-! ## One slot -/

/-- The relocation is of a supported type and bound to the symbol. -/
def Hit (s : HookManager) (w : Addr × Reloc) (sid : SymId) : Prop :=
  ∃ i, s.infos w.1 = some i ∧ i.hookedSymbols w.2.sym = some sid ∧ w.2.type.supported = true

theorem Hit.unique (h : Hit s w sid) (h' : Hit s w sid') : sid' = sid := by
  obtain ⟨i, hi, hsid, -⟩ := h
  obtain ⟨i', hi', hsid', -⟩ := h'
  rw [hi, Option.some.injEq] at hi'
  subst hi'
  exact Option.some.inj (hsid'.symm.trans hsid)

/-- The word in which the first hook of the symbol expects the original. -/
def firstOrig (s : HookManager) (sid : SymId) : Option Addr :=
  (s.symbols sid).firstHook.bind fun k => (s.hooks k).map HookInstance.orig

/-- The symbol gets an original. -/
@[simps]
def learn (s : HookManager) (sid : SymId) (original : Nat) : HookManager :=
  { s with
    symbols := update s.symbols sid { s.symbols sid with original := original }
    mem := (s.firstOrig sid).elim s.mem fun o => update s.mem o original }

@[simps]
def write (s : HookManager) (x : Addr) (value : Nat) : HookManager :=
  { s with mem := update s.mem x value }

theorem redirection_of_lastHook (hk : (s.symbols sid).lastHook = some k)
    (hhook : s.hooks k = some hook) (hne : hook.replacement ≠ 0) :
    s.redirection sid = some hook.replacement := by
  simp [redirection, hk, hhook, hne]

theorem LiveEnds.redirection (h : LiveEnds s) (sid : SymId) : ∃ v, s.redirection sid = some v := by
  rw [HookManager.redirection]
  split
  · exact ⟨_, rfl⟩
  next k hk =>
    obtain ⟨hook, hhook⟩ := Option.ne_none_iff_exists'.mp (h sid k (.inr hk))
    exact ⟨_, by rw [hhook]; rfl⟩

theorem recordOriginal_eq (h : LiveEnds s) (sid : SymId) (original : Nat) :
    s.recordOriginal sid original =
      some (if original ≠ 0 ∧ (s.symbols sid).original = 0 then s.learn sid original else s) := by
  simp only [recordOriginal]
  split
  · cases hfirst : (s.symbols sid).firstHook with
    | none => simp [learn, firstOrig, hfirst]
    | some k =>
      obtain ⟨hook, hhook⟩ := Option.ne_none_iff_exists'.mp (h sid k (.inl hfirst))
      simp [learn, firstOrig, hfirst, hhook]
  · rfl

/-- The slot gets the value `v`; the symbol gets the original if that is not known and if there is
something in the slot. -/
def redirect (s : HookManager) (x : Addr) (sid : SymId) (v : Nat) : HookManager :=
  if elfWord (s.mem x) ≠ 0 ∧ (s.symbols sid).original = 0 then
    (s.write x v).learn sid (elfWord (s.mem x))
  else s.write x v

/-- **What happens at one relocation**: nothing, or the slot is written and the symbol may get its
original. -/
theorem applySlot_cases (hends : LiveEnds s) (hinfo : s.infos w.1 ≠ none) :
    (applySlot s w = some s ∧ ∀ sid, Hit s w sid → s.redirection sid = some 0) ∨
      ∃ sid v, Hit s w sid ∧ s.redirection sid = some v ∧ v ≠ 0 ∧
        applySlot s w = some (s.redirect w.2.addr sid v) := by
  obtain ⟨i, hi⟩ := Option.ne_none_iff_exists'.mp hinfo
  simp only [applySlot, applyReloc, hi, Option.bind_eq_bind, Option.bind_some]
  cases hsid : i.hookedSymbols w.2.sym with
  | none =>
    refine .inl ⟨rfl, fun sid ⟨i', hi', hsid', _⟩ => ?_⟩
    rw [hi, Option.some.injEq] at hi'
    subst hi'
    cases hsid.symm.trans hsid'
  | some sid =>
    have huniq : ∀ {x}, Hit s w x → x = sid := by
      rintro x ⟨i', hi', hx, -⟩
      rw [hi, Option.some.injEq] at hi'
      subst hi'
      exact Option.some.inj (hx.symm.trans hsid)
    obtain ⟨v, hv⟩ := hends.redirection sid
    simp only [hv, Option.bind_some]
    split
    next hskip =>
      refine .inl ⟨rfl, fun x hx => ?_⟩
      obtain rfl := huniq hx
      obtain ⟨_, -, -, htype⟩ := hx
      rw [hv, hskip.resolve_right (not_not_intro htype)]
    next hskip =>
      rw [not_or, not_not] at hskip
      refine .inr ⟨sid, v, ⟨i, hi, hsid, hskip.2⟩, hv, hskip.1, ?_⟩
      exact recordOriginal_eq (s := s.write w.2.addr v) hends sid _

theorem learn_mem_apply (s : HookManager) (sid : SymId) (original : Nat) (x : Addr) :
    (s.learn sid original).mem x = if s.firstOrig sid = some x then original else s.mem x := by
  rw [learn_mem]
  cases s.firstOrig sid with
  | none => simp
  | some o =>
    simp only [Option.elim_some, Function.update_apply, Option.some.injEq, eq_comm]

section Redirect
variable {sid : SymId} {x y : Addr} {v : Nat}

theorem redirect_mem_slot (h : s.firstOrig sid ≠ some x) : (s.redirect x sid v).mem x = v := by
  rw [redirect]
  split
  · rw [learn_mem_apply, if_neg (by exact h), write_mem, Function.update_self]
  · rw [write_mem, Function.update_self]

theorem redirect_mem_of_ne (hy : y ≠ x)
    (h : elfWord (s.mem x) ≠ 0 → (s.symbols sid).original = 0 → s.firstOrig sid ≠ some y) :
    (s.redirect x sid v).mem y = s.mem y := by
  rw [redirect]
  split
  next hlearn =>
    rw [learn_mem_apply, if_neg (by exact h hlearn.1 hlearn.2), write_mem, Function.update_of_ne hy]
  · rw [write_mem, Function.update_of_ne hy]

theorem redirect_original (x : Addr) (v : Nat) (sid' : SymId) :
    ((s.redirect x sid v).symbols sid').original =
      if sid' = sid ∧ (s.symbols sid).original = 0 then elfWord (s.mem x)
      else (s.symbols sid').original := by
  rw [redirect]
  by_cases hsid : sid' = sid
  · subst hsid
    by_cases horig : (s.symbols sid').original = 0
    · by_cases hmem : elfWord (s.mem x) = 0 <;> simp [horig, hmem]
    · simp [horig]
  · rw [if_neg (not_and_of_not_left _ hsid)]
    split
    · simp [hsid]
    · rfl

theorem redirect_mem_firstOrig (hmem : elfWord (s.mem x) ≠ 0)
    (horig : (s.symbols sid).original = 0) (ho : s.firstOrig sid = some y) :
    (s.redirect x sid v).mem y = elfWord (s.mem x) := by
  rw [redirect, if_pos ⟨hmem, horig⟩, learn_mem_apply, if_pos (by exact ho)]

end Redirect

/-! ## The whole pass -/

/-- What a pass leaves as it is: all but the memory and the originals that were not known. -/
structure Applied (s₀ s : HookManager) : Prop extends Frame s₀ s where
  hooks : s.hooks = s₀.hooks
  nextHook : s.nextHook = s₀.nextHook
  firstHook : ∀ sid, (s.symbols sid).firstHook = (s₀.symbols sid).firstHook
  lastHook : ∀ sid, (s.symbols sid).lastHook = (s₀.symbols sid).lastHook
  redirection : ∀ sid, s.redirection sid = s₀.redirection sid
  original : (s₀.symbols sid).original ≠ 0 →
    (s.symbols sid).original = (s₀.symbols sid).original

namespace Applied

theorem refl (s : HookManager) : Applied s s :=
  ⟨.refl s, rfl, rfl, fun _ => rfl, fun _ => rfl, fun _ => rfl, fun _ => rfl⟩

theorem write (h : Applied s₀ s) (x : Addr) (v : Nat) : Applied s₀ (s.write x v) :=
  ⟨h.toFrame.trans ⟨rfl, rfl, rfl, rfl, rfl, fun _ => rfl, fun _ => rfl⟩, h.hooks, h.nextHook,
    h.firstHook, h.lastHook, h.redirection, h.original⟩

/-- A symbol whose slots are redirected before its original is known has a hook. -/
theorem exists_lastHook (hv : s.redirection sid = some v) (hne : v ≠ 0)
    (horig : (s.symbols sid).original = 0) :
    ∃ k hook, (s.symbols sid).lastHook = some k ∧ s.hooks k = some hook ∧
      hook.replacement = v := by
  rw [HookManager.redirection] at hv
  split at hv
  · rw [horig, Option.some.injEq] at hv
    exact absurd hv.symm hne
  next k hk =>
    obtain ⟨hook, hhook, hv⟩ := Option.bind_eq_some_iff.mp hv
    rw [horig, Option.some.injEq] at hv
    split at hv
    · exact ⟨k, hook, hk, hhook, hv⟩
    · exact absurd hv.symm hne

theorem redirection_learn (hv : s.redirection sid = some v) (hne : v ≠ 0)
    (horig : (s.symbols sid).original = 0) (original : Nat) (x : SymId) :
    (s.learn sid original).redirection x = s.redirection x := by
  by_cases hx : x = sid
  · subst hx
    obtain ⟨k, hook, hlast, hhook, rfl⟩ := exists_lastHook hv hne horig
    rw [hv, HookManager.redirection]
    simp [hlast, hhook, hne]
  · simp [HookManager.redirection, hx]

theorem learn (h : Applied s₀ s) (hv : s.redirection sid = some v) (hne : v ≠ 0)
    (horig : (s.symbols sid).original = 0) (original : Nat) :
    Applied s₀ (s.learn sid original) := by
  refine ⟨h.toFrame.trans (.update s sid _ _ _ _ _ _), h.hooks, h.nextHook, fun x => ?_,
    fun x => ?_, fun x => ?_, fun {x} hx => ?_⟩
  · rw [← h.firstHook]
    by_cases hx : x = sid <;> simp [hx]
  · rw [← h.lastHook]
    by_cases hx : x = sid <;> simp [hx]
  · rw [redirection_learn hv hne horig, h.redirection]
  · rw [← h.original hx]
    have hne : x ≠ sid := by
      rintro rfl
      exact hx (h.original hx ▸ horig)
    simp [hne]

theorem redirect (h : Applied s₀ s) (hv : s.redirection sid = some v) (hne : v ≠ 0) (x : Addr) :
    Applied s₀ (s.redirect x sid v) := by
  rw [HookManager.redirect]
  split
  next hlearn => exact (h.write x v).learn (by exact hv) hne hlearn.2 _
  · exact h.write x v

theorem liveEnds (h : Applied s₀ s) (hends : LiveEnds s₀) : LiveEnds s := by
  intro sid k hk
  rw [h.firstHook, h.lastHook] at hk
  rw [h.hooks]
  exact hends sid k hk

theorem hit_iff (h : Applied s₀ s) : Hit s w sid ↔ Hit s₀ w sid := by
  rw [Hit, Hit, h.infos]

theorem firstOrig_eq (h : Applied s₀ s) (sid : SymId) : s.firstOrig sid = s₀.firstOrig sid := by
  rw [firstOrig, firstOrig, h.firstHook, h.hooks]

end Applied

/-- **`applyHooks` is defined** if the ends of the chains are live. -/
theorem LiveEnds.applyHooks (hends : LiveEnds s) (hreg : Registered p s) (order : List Handle) :
    ∃ s', s.applyHooks p order = some s' ∧ Applied s s' := by
  have hinfos : ∀ w ∈ s.visits p order, s.infos w.1 ≠ none := fun w hw => by
    obtain ⟨M, hM, -⟩ := mem_visits.mp hw
    obtain ⟨i, hi, -⟩ := hreg.info hM
    simp [hi]
  have hstep : ∀ s' (w : Addr × Reloc) (todo : List (Addr × Reloc)),
      (Applied s s' ∧ ∀ w' ∈ w :: todo, s.infos w'.1 ≠ none) →
      ∃ s'', s'.applySlot w = some s'' ∧ Applied s s'' ∧ ∀ w' ∈ todo, s.infos w'.1 ≠ none := by
    rintro s' w todo ⟨happ, hinfos⟩
    have htail : ∀ w' ∈ todo, s.infos w'.1 ≠ none := fun w' hw' => hinfos w' (.tail _ hw')
    obtain ⟨happly, -⟩ | ⟨sid, v, -, hv, hv0, happly⟩ :=
      applySlot_cases (happ.liveEnds hends) (by rw [happ.infos]; exact hinfos w (.head _))
    · exact ⟨s', happly, happ, htail⟩
    · exact ⟨_, happly, happ.redirect hv hv0 _, htail⟩
  rw [applyHooks_eq]
  obtain ⟨s', hs', happ, -⟩ := Runs.run_todo (I := fun (todo : List (Addr × Reloc)) s' =>
    Applied s s' ∧ ∀ w ∈ todo, s.infos w.1 ≠ none) hstep ⟨.refl s, hinfos⟩
  exact ⟨s', hs', happ⟩

/-- What a pass over the relocations `W` relies on. -/
structure Ready (s₀ : HookManager) (W : List (Addr × Reloc)) : Prop where
  ends : LiveEnds s₀
  infos : ∀ w ∈ W, s₀.infos w.1 ≠ none
  nodup : (W.map fun w => w.2.addr).Nodup
  apart : ∀ w ∈ W, Hit s₀ w sid → ∀ x, s₀.firstOrig x ≠ some w.2.addr

/-- The state in a pass over the relocations `W` that started in `s₀`, when those in `todo` have not
been visited yet. -/
structure Pass (s₀ : HookManager) (W todo : List (Addr × Reloc)) (s : HookManager) : Prop extends
    Applied s₀ s where
  sublist : todo.Sublist W
  /-- The slots that have been visited. -/
  done : ∀ w ∈ W, w ∉ todo → Hit s₀ w sid → s₀.redirection sid = some v → v ≠ 0 →
    s.mem w.2.addr = v
  pending : ∀ w ∈ todo, Hit s₀ w sid → s.mem w.2.addr = s₀.mem w.2.addr
  /-- An original that has become known is what was in a slot. -/
  learned : (s₀.symbols sid).original = 0 → (s.symbols sid).original ≠ 0 →
    (∃ w ∈ W, Hit s₀ w sid ∧ (s.symbols sid).original = elfWord (s₀.mem w.2.addr)) ∧
      ∀ o, s₀.firstOrig sid = some o → (∀ x, s₀.firstOrig x = some o → x = sid) →
        s.mem o = (s.symbols sid).original
  /-- If it has not, then there was none in the slots that have been visited. -/
  unknown : (s.symbols sid).original = 0 → ∀ w ∈ W, w ∉ todo → Hit s₀ w sid →
    s₀.redirection sid ≠ some 0 → elfWord (s₀.mem w.2.addr) = 0
  other : (∀ w ∈ W, ∀ sid, Hit s₀ w sid → s₀.redirection sid ≠ some 0 → w.2.addr ≠ x) →
    (∀ sid, (s.symbols sid).original ≠ (s₀.symbols sid).original → s₀.firstOrig sid ≠ some x) →
    s.mem x = s₀.mem x

namespace Pass

variable {W todo : List (Addr × Reloc)} {w : Addr × Reloc}

theorem start (s₀ : HookManager) (W : List (Addr × Reloc)) : Pass s₀ W W s₀ where
  toApplied := .refl s₀
  sublist := .refl W
  done _ hw hw' := absurd hw hw'
  pending _ _ _ := rfl
  learned h h' := absurd h h'
  unknown _ _ hw hw' := absurd hw hw'
  other _ _ := rfl

theorem sublist_tail (h : Pass s₀ W (w :: todo) s) : todo.Sublist W :=
  (List.sublist_cons_self w todo).trans h.sublist

theorem visited (w : Addr × Reloc) {w' : Addr × Reloc} (hw' : w' ∉ todo) :
    w' = w ∨ w' ∉ w :: todo := by
  by_cases hww : w' = w
  · exact .inl hww
  · exact .inr (by simp [hww, hw'])

/-- A relocation that is not bound, or not to a symbol with a hook or an original. -/
theorem skip (h : Pass s₀ W (w :: todo) s)
    (hzero : ∀ sid, Hit s₀ w sid → s₀.redirection sid = some 0) : Pass s₀ W todo s := by
  refine ⟨h.toApplied, h.sublist_tail, fun w' hw' hdone hhit hred hne => ?_,
    fun w' hw' => h.pending w' (.tail _ hw'), h.learned, fun h0 w' hw' hdone hhit hred => ?_,
    h.other⟩
  · rcases visited w hdone with rfl | hdone
    · rw [hzero _ hhit, Option.some.injEq] at hred
      exact absurd hred.symm hne
    · exact h.done w' hw' hdone hhit hred hne
  · rcases visited w hdone with rfl | hdone
    · exact absurd (hzero _ hhit) hred
    · exact h.unknown h0 w' hw' hdone hhit hred

section Redirect
variable {sid x : SymId} {v : Nat}

/-- The slots of the other relocations are other words. -/
theorem redirect_mem_slot_of_ne (hready : Ready s₀ W) (h : Pass s₀ W (w :: todo) s)
    {w' : Addr × Reloc} (hw' : w' ∈ W) (hne : w' ≠ w) (hhit : Hit s₀ w' x) :
    (s.redirect w.2.addr sid v).mem w'.2.addr = s.mem w'.2.addr := by
  refine redirect_mem_of_ne (fun haddr => hne ?_) fun _ _ => ?_
  · exact List.inj_on_of_nodup_map hready.nodup hw' (h.sublist.subset (.head _)) haddr
  · rw [h.firstOrig_eq]
    exact hready.apart w' hw' hhit sid

theorem learned_redirect (hready : Ready s₀ W) (h : Pass s₀ W (w :: todo) s)
    (hhit : Hit s₀ w sid) (h0 : (s₀.symbols x).original = 0)
    (h1 : ((s.redirect w.2.addr sid v).symbols x).original ≠ 0) :
    (∃ w' ∈ W, Hit s₀ w' x ∧
      ((s.redirect w.2.addr sid v).symbols x).original = elfWord (s₀.mem w'.2.addr)) ∧
      ∀ o, s₀.firstOrig x = some o → (∀ y, s₀.firstOrig y = some o → y = x) →
        (s.redirect w.2.addr sid v).mem o = ((s.redirect w.2.addr sid v).symbols x).original := by
  have hw : w ∈ W := h.sublist.subset (.head _)
  rw [redirect_original] at h1 ⊢
  split at h1
  next hlearn =>
    obtain ⟨rfl, horig⟩ := hlearn
    rw [if_pos ⟨rfl, horig⟩]
    refine ⟨⟨w, hw, hhit, by rw [h.pending w (.head _) hhit]⟩, fun o ho _ => ?_⟩
    exact redirect_mem_firstOrig h1 horig (by rw [h.firstOrig_eq]; exact ho)
  next hkeep =>
    rw [if_neg hkeep]
    obtain ⟨hfrom, hfirst⟩ := h.learned h0 h1
    refine ⟨hfrom, fun o ho hunique => ?_⟩
    rw [redirect_mem_of_ne, hfirst o ho hunique]
    · rintro rfl
      exact hready.apart w hw hhit x ho
    · intro _ horig hsid
      rw [h.firstOrig_eq] at hsid
      exact hkeep ⟨(hunique sid hsid).symm, horig⟩

theorem unknown_redirect (h : Pass s₀ W (w :: todo) s) (hhit : Hit s₀ w sid)
    (h0 : ((s.redirect w.2.addr sid v).symbols x).original = 0) {w' : Addr × Reloc} (hw' : w' ∈ W)
    (hdone : w' ∉ todo) (hhit' : Hit s₀ w' x) (hred : s₀.redirection x ≠ some 0) :
    elfWord (s₀.mem w'.2.addr) = 0 := by
  rw [redirect_original] at h0
  rcases visited w hdone with rfl | hdone
  · obtain rfl := hhit.unique hhit'
    split at h0
    · rw [← h.pending w' (.head _) hhit, h0]
    next hkeep => exact absurd ⟨rfl, h0⟩ hkeep
  · refine h.unknown ?_ w' hw' hdone hhit' hred
    split at h0
    next hlearn => rw [hlearn.1, hlearn.2]
    · exact h0

theorem other_redirect (h : Pass s₀ W (w :: todo) s) (hhit : Hit s₀ w sid)
    (hred : s₀.redirection sid ≠ some 0) {y : Addr}
    (hslots : ∀ w ∈ W, ∀ sid, Hit s₀ w sid → s₀.redirection sid ≠ some 0 → w.2.addr ≠ y)
    (hlearned : ∀ x, ((s.redirect w.2.addr sid v).symbols x).original ≠
      (s₀.symbols x).original → s₀.firstOrig x ≠ some y) :
    (s.redirect w.2.addr sid v).mem y = s₀.mem y := by
  have hzero : ∀ {x}, (s.symbols x).original ≠ (s₀.symbols x).original →
      (s₀.symbols x).original = 0 := fun hx => not_not.mp fun hne => hx (h.original hne)
  rw [redirect_mem_of_ne, h.other hslots fun x hx => hlearned x ?_]
  · rw [redirect_original, if_neg]
    · exact hx
    · rintro ⟨rfl, horig⟩
      exact hx (horig.trans (hzero hx).symm)
  · exact (hslots w (h.sublist.subset (.head _)) sid hhit hred).symm
  · intro hword horig
    rw [h.firstOrig_eq]
    apply hlearned sid
    rw [redirect_original, if_pos ⟨rfl, horig⟩]
    intro heq
    rw [heq] at hword
    exact hword ((h.original hword).symm.trans horig)

theorem redirect (hready : Ready s₀ W) (h : Pass s₀ W (w :: todo) s) (hhit : Hit s₀ w sid)
    (hred : s₀.redirection sid = some v) (hne : v ≠ 0) :
    Pass s₀ W todo (s.redirect w.2.addr sid v) := by
  have hw : w ∈ W := h.sublist.subset (.head _)
  have hnodup : (w :: todo).Nodup := hready.nodup.of_map.sublist h.sublist
  refine ⟨h.toApplied.redirect (by rw [h.redirection, hred]) hne _, h.sublist_tail,
    fun w' hw' hdone hhit' hred' hne0 => ?_, fun w' hw' hhit' => ?_, h.learned_redirect hready hhit,
    fun h0 w' hw' => h.unknown_redirect hhit h0 hw',
    h.other_redirect hhit (by rw [hred]; simpa using hne)⟩
  · rcases visited w hdone with rfl | hdone
    · rw [hhit.unique hhit', hred, Option.some.injEq] at hred'
      rw [redirect_mem_slot, hred']
      rw [h.firstOrig_eq]
      exact hready.apart w' hw' hhit sid
    · rw [h.redirect_mem_slot_of_ne hready hw' (fun hww => hdone (hww ▸ .head _)) hhit']
      exact h.done w' hw' hdone hhit' hred' hne0
  · rw [h.redirect_mem_slot_of_ne hready (h.sublist_tail.subset hw') _ hhit']
    · exact h.pending w' (.tail _ hw') hhit'
    · rintro rfl
      exact (List.nodup_cons.mp hnodup).1 hw'

end Redirect

theorem step (hready : Ready s₀ W) (h : Pass s₀ W (w :: todo) s) :
    ∃ s', applySlot s w = some s' ∧ Pass s₀ W todo s' := by
  have hinfo : s.infos w.1 ≠ none := by
    rw [h.infos]
    exact hready.infos w (h.sublist.subset (.head _))
  obtain ⟨happly, hzero⟩ | ⟨sid, v, hhit, hred, hne, happly⟩ :=
    applySlot_cases (h.liveEnds hready.ends) hinfo
  · simp only [h.hit_iff, h.redirection] at hzero
    exact ⟨s, happly, h.skip hzero⟩
  · rw [h.hit_iff] at hhit
    rw [h.redirection] at hred
    exact ⟨_, happly, h.redirect hready hhit hred hne⟩

end Pass

/-- **`applyHooks`** is defined and passes over the recorded relocations. -/
theorem applyHooks_pass (order : List Handle) (hready : Ready s (s.visits p order)) :
    ∃ s', s.applyHooks p order = some s' ∧ Pass s (s.visits p order) [] s' := by
  rw [applyHooks_eq]
  exact Runs.run_todo (fun _ _ _ h => h.step hready) (.start s _)

end HookManager

end McpeLauncher.Hook
