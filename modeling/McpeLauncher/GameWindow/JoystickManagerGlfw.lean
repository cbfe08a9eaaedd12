import Mathlib.Data.List.Perm.Subperm
import Mathlib.Logic.Function.Basic
import McpeLauncher.Lib.Keyed
import McpeLauncher.Lib.Runs

/-!
# Joysticks and windows

`GLFWJoystickManager` gives user ids to the joysticks that GLFW reports, and tells the windows which
ids are connected. What GLFW knows about a joystick (whether it is present, and whether it has a
gamepad mapping) is part of the calls.
-/

namespace McpeLauncher.GameWindow

/-- `glfwJoystickIsGamepad`, and what `handleMissingGamePadMapping` returns if it is called. -/
structure Mapping where
  isGamepad : Bool
  handled : Bool

/-- The static members of `GLFWJoystickManager`, and the calls of `onGamepadState` that a window has
got, the last one first. -/
structure JoystickManager (ω : Type) where
  windows : List ω
  focusedWindow : Option ω
  connectedJoysticks : List (Nat × Nat)
  userIds : List Nat
  received : ω → List (Nat × Bool)

/-- The loop of `nextUnassignedUserId`. -/
def unassignedFrom (userIds : List Nat) : Nat → Nat → Nat
  | 0, i => i
  | n + 1, i => if userIds.contains i then unassignedFrom userIds n (i + 1) else i

/-- After as many rounds as there are ids, one is not in use. -/
def nextUnassignedUserId (userIds : List Nat) : Nat := unassignedFrom userIds userIds.length 0

/-- `GLFW_JOYSTICK_LAST + 1` -/
def joystickCount : Nat := 16

namespace JoystickManager

variable {ω : Type}

def init : JoystickManager ω := ⟨[], none, [], [], fun _ => []⟩

/-- `connectedJoysticks.find` -/
def find (s : JoystickManager ω) (joystick : Nat) : Option (Nat × Nat) :=
  s.connectedJoysticks.find? (·.1 = joystick)

variable [DecidableEq ω]

/-- `window->onGamepadState` -/
def onGamepadState (s : JoystickManager ω) (window : ω) (id : Nat) (connected : Bool) :
    JoystickManager ω :=
  { s with received := Function.update s.received window ((id, connected) :: s.received window) }

/-- The loop at the end of `_glfwJoystickCallback`. -/
def notifyAll (s : JoystickManager ω) (userId : Nat) (connected : Bool) : JoystickManager ω :=
  s.windows.foldl (fun s window => s.onGamepadState window userId connected) s

/-- `_glfwJoystickCallback(joystick, GLFW_CONNECTED)` -/
def onConnected (s : JoystickManager ω) (joystick : Nat) (mapping : Mapping) : JoystickManager ω :=
  if mapping.isGamepad = false ∧ (s.windows.isEmpty = true ∨ mapping.handled = false) then s
  else
    match s.find joystick with
    | some _ => s
    | none =>
      let userId := nextUnassignedUserId s.userIds
      notifyAll
        { s with
          userIds := userId :: s.userIds
          connectedJoysticks := (joystick, userId) :: s.connectedJoysticks }
        userId true

/-- `_glfwJoystickCallback(joystick, GLFW_DISCONNECTED)` -/
def onDisconnected (s : JoystickManager ω) (joystick : Nat) : JoystickManager ω :=
  match s.find joystick with
  | none => s
  | some (_, userId) =>
    notifyAll
      { s with
        userIds := s.userIds.erase userId
        connectedJoysticks := s.connectedJoysticks.eraseP (·.1 = joystick) }
      userId false

/-- `windows.insert` -/
def insertWindow (s : JoystickManager ω) (window : ω) : JoystickManager ω :=
  { s with windows := if s.windows.contains window then s.windows else window :: s.windows }

/-- The loop over all joysticks in `addWindow`. -/
def poll (s : JoystickManager ω) (present : Nat → Bool) (mapping : Nat → Mapping) :
    JoystickManager ω :=
  (List.range joystickCount).foldl (fun s i => if present i then s.onConnected i (mapping i) else s)
    s

def addWindow (s : JoystickManager ω) (window : ω) (present : Nat → Bool)
    (mapping : Nat → Mapping) :
    JoystickManager ω :=
  let s := s.insertWindow window
  if s.windows.length = 1 then s.poll present mapping
  else s.connectedJoysticks.foldl (fun s joystick => s.onGamepadState window joystick.2 true) s

/-- `removeWindow`, which is called when the window is destroyed. -/
def removeWindow (s : JoystickManager ω) (window : ω) : JoystickManager ω :=
  { s with windows := s.windows.erase window, received := Function.update s.received window [] }

def onWindowFocused (s : JoystickManager ω) (window : ω) (focused : Bool) : JoystickManager ω :=
  if focused then { s with focusedWindow := some window }
  else if s.focusedWindow = some window then { s with focusedWindow := none }
  else s

inductive Action (ω : Type)
  | addWindow (window : ω) (present : Nat → Bool) (mapping : Nat → Mapping)
  | removeWindow (window : ω)
  | focus (window : ω) (focused : Bool)
  | connected (joystick : Nat) (mapping : Mapping)
  | disconnected (joystick : Nat)

/-- Windows that are not registered are not focused. -/
def step (s : JoystickManager ω) : Action ω → Option (JoystickManager ω)
  | .addWindow window present mapping => some (s.addWindow window present mapping)
  | .removeWindow window => some (s.removeWindow window)
  | .focus window focused =>
    if s.windows.contains window then some (s.onWindowFocused window focused) else none
  | .connected joystick mapping => some (s.onConnected joystick mapping)
  | .disconnected joystick => some (s.onDisconnected joystick)

/-- Whether the last call about an id was `onGamepadState(id, true)`. -/
def Told (id : Nat) : List (Nat × Bool) → Prop
  | [] => False
  | (i, connected) :: received => if i = id then connected = true else Told id received

/-- The containers, the windows and the focus agree. -/
structure Consistent (s : JoystickManager ω) : Prop where
  userIds : ∀ id, id ∈ s.userIds ↔ id ∈ s.connectedJoysticks.map Prod.snd
  distinct : (s.connectedJoysticks.map Prod.snd).Nodup
  told : ∀ window ∈ s.windows, ∀ id, Told id (s.received window) ↔ id ∈ s.userIds
  focused : ∀ window, s.focusedWindow = some window → window ∈ s.windows

/-- The first window comes before the first joystick, and the window that has the focus is not
removed. -/
def CallOk (s : JoystickManager ω) : Action ω → Prop
  | .addWindow .. => s.windows = [] → s.connectedJoysticks = []
  | .removeWindow window => s.focusedWindow ≠ some window
  | _ => True

end JoystickManager

/-! ## User ids -/

theorem unassignedFrom_not_mem {userIds : List Nat} (n i : Nat) (hlen : n + i = userIds.length)
    (hbelow : ∀ k < i, k ∈ userIds) : unassignedFrom userIds n i ∉ userIds := by
  induction n generalizing i with
  | zero =>
    -- All ids below are in use, and there are no others.
    have hsub : List.range i ⊆ userIds := fun k hk => hbelow k (List.mem_range.mp hk)
    have hperm : (List.range i).Perm userIds :=
      (List.subperm_of_subset List.nodup_range hsub).perm_of_length_le
        (by rw [List.length_range]; omega)
    rw [unassignedFrom, ← hperm.mem_iff, List.mem_range]
    exact Nat.lt_irrefl i
  | succ n ih =>
    rw [unassignedFrom]
    split
    next hmem =>
      refine ih (i + 1) (by omega) fun k hk => ?_
      rcases Nat.lt_succ_iff_lt_or_eq.mp hk with hk | rfl
      · exact hbelow k hk
      · exact List.contains_iff_mem.mp hmem
    next hmem => exact fun h => hmem (List.contains_iff_mem.mpr h)

theorem nextUnassignedUserId_not_mem (userIds : List Nat) :
    nextUnassignedUserId userIds ∉ userIds :=
  unassignedFrom_not_mem _ 0 rfl fun _ hk => absurd hk (Nat.not_lt_zero _)

namespace JoystickManager

variable {ω : Type}

/-! ## What the windows are told -/

theorem told_cons {id i : Nat} {connected : Bool} {received : List (Nat × Bool)} :
    Told id ((i, connected) :: received) ↔
      i = id ∧ connected = true ∨ i ≠ id ∧ Told id received := by
  rw [Told]
  split
  next h => exact ⟨fun hc => .inl ⟨h, hc⟩, fun hc => (hc.resolve_right fun h' => h'.1 h).2⟩
  next h => exact ⟨fun hc => .inr ⟨h, hc⟩, fun hc => (hc.resolve_left fun h' => h h'.1).2⟩

variable [DecidableEq ω] {s s' s₀ : JoystickManager ω}

/-- A loop that calls `onGamepadState`, for several windows or for several ids. -/
theorem foldl_onGamepadState {β : Type} (f : β → ω) (g : β → Nat) (connected : Bool) (l : List β)
    (s : JoystickManager ω) :
    ∃ received, l.foldl (fun s b => s.onGamepadState (f b) (g b) connected) s =
        { s with received } ∧
      (∀ w, (∀ b ∈ l, f b ≠ w) → received w = s.received w) ∧
      ∀ w id, Told id (received w) ↔
        (∃ b ∈ l, f b = w ∧ g b = id) ∧ connected = true ∨
          (¬ ∃ b ∈ l, f b = w ∧ g b = id) ∧ Told id (s.received w) := by
  induction l generalizing s with
  | nil =>
    refine ⟨s.received, rfl, fun _ _ => rfl, fun w id => ?_⟩
    simp only [List.not_mem_nil, false_and, exists_false, not_false_eq_true, true_and, false_or]
  | cons b l ih =>
    obtain ⟨received, heq, hother, htold⟩ := ih (s.onGamepadState (f b) (g b) connected)
    refine ⟨received, heq, fun w hw => ?_, fun w id => ?_⟩
    · rw [hother w fun b' hb' => hw b' (.tail b hb')]
      exact Function.update_of_ne (hw b (.head l)).symm ..
    · rw [htold w id]
      by_cases hfb : f b = w
      · have hreceived : (s.onGamepadState (f b) (g b) connected).received w =
            (g b, connected) :: s.received w := by
          rw [← hfb]
          exact Function.update_self ..
        rw [hreceived, told_cons]
        by_cases hgb : g b = id <;> grind
      · have hreceived : (s.onGamepadState (f b) (g b) connected).received w = s.received w :=
          Function.update_of_ne (Ne.symm hfb) ..
        rw [hreceived]
        grind

/-- The loop at the end of the callback. -/
theorem notifyAll_spec (s : JoystickManager ω) (userId : Nat) (connected : Bool) :
    ∃ received, s.notifyAll userId connected = { s with received } ∧
      (∀ w, w ∉ s.windows → received w = s.received w) ∧
      ∀ w ∈ s.windows, ∀ id, Told id (received w) ↔
        userId = id ∧ connected = true ∨ userId ≠ id ∧ Told id (s.received w) := by
  obtain ⟨received, heq, hother, htold⟩ :=
    foldl_onGamepadState (fun w : ω => w) (fun _ => userId) connected s.windows s
  refine ⟨received, heq, fun w hw => hother w fun v hv => ?_, fun w hw id => ?_⟩
  · exact fun h => hw (h ▸ hv)
  · have hiff : (∃ v ∈ s.windows, v = w ∧ userId = id) ↔ userId = id :=
      ⟨fun ⟨_, _, _, h⟩ => h, fun h => ⟨w, hw, rfl, h⟩⟩
    rw [htold w id, hiff]

/-! ## Bookkeeping -/

/-- The user ids are those of the joysticks, and only registered windows are told anything. -/
structure Inv (s : JoystickManager ω) : Prop where
  userIds : s.userIds = s.connectedJoysticks.map Prod.snd
  ids : s.userIds.Nodup
  keys : (s.connectedJoysticks.map Prod.fst).Nodup
  windows : s.windows.Nodup
  unregistered : ∀ w, w ∉ s.windows → s.received w = []

omit [DecidableEq ω] in
theorem inv_init : Inv (init : JoystickManager ω) :=
  ⟨rfl, .nil, .nil, .nil, fun _ _ => rfl⟩

omit [DecidableEq ω] in
theorem not_mem_of_find {joystick : Nat} (hfind : s.find joystick = none) :
    joystick ∉ s.connectedJoysticks.map Prod.fst := by
  intro hmem
  obtain ⟨entry, hentry, hkey⟩ := List.mem_map.mp hmem
  have hnone := List.find?_eq_none.mp hfind entry hentry
  exact hnone (decide_eq_true hkey)

theorem Inv.onConnected (h : Inv s) (joystick : Nat) (mapping : Mapping) :
    Inv (s.onConnected joystick mapping) := by
  rw [JoystickManager.onConnected]
  split
  next => exact h
  next =>
    split
    next => exact h
    next hfind =>
      obtain ⟨received, heq, hother, -⟩ := notifyAll_spec
        { s with
          userIds := nextUnassignedUserId s.userIds :: s.userIds
          connectedJoysticks := (joystick, nextUnassignedUserId s.userIds) :: s.connectedJoysticks }
        (nextUnassignedUserId s.userIds) true
      rw [heq]
      exact
        { userIds := congrArg (nextUnassignedUserId s.userIds :: ·) h.userIds
          ids := List.nodup_cons.mpr ⟨nextUnassignedUserId_not_mem s.userIds, h.ids⟩
          keys := List.nodup_cons.mpr ⟨not_mem_of_find hfind, h.keys⟩
          windows := h.windows
          unregistered := fun w hw => (hother w hw).trans (h.unregistered w hw) }

/-- To remove a joystick is to remove its id. -/
theorem map_eraseP {joystick userId : Nat} {l : List (Nat × Nat)} (hkeys : (l.map Prod.fst).Nodup)
    (hids : (l.map Prod.snd).Nodup) (hmem : (joystick, userId) ∈ l) :
    (l.eraseP (·.1 = joystick)).map Prod.snd = (l.map Prod.snd).erase userId := by
  induction l with
  | nil => cases hmem
  | cons b l ih =>
    obtain ⟨hb, hkeys⟩ := List.nodup_cons.mp hkeys
    obtain ⟨hb', hids⟩ := List.nodup_cons.mp hids
    rcases List.mem_cons.mp hmem with rfl | hmem
    · rw [List.eraseP_cons_of_pos (by simp), List.map_cons, List.erase_cons_head]
    · have hkey : b.1 ≠ joystick := fun h => hb (List.mem_map.mpr ⟨_, hmem, h.symm⟩)
      have hid : b.2 ≠ userId := fun h => hb' (List.mem_map.mpr ⟨_, hmem, h.symm⟩)
      rw [List.eraseP_cons_of_neg (by simpa using hkey), List.map_cons, List.map_cons,
        ih hkeys hids hmem,
        List.erase_cons_tail (by simpa using hid)]

theorem Inv.onDisconnected (h : Inv s) (joystick : Nat) : Inv (s.onDisconnected joystick) := by
  rw [JoystickManager.onDisconnected]
  split
  next => exact h
  next joystick' userId hfind =>
    obtain ⟨received, heq, hother, -⟩ := notifyAll_spec
      { s with
        userIds := s.userIds.erase userId
        connectedJoysticks := s.connectedJoysticks.eraseP (·.1 = joystick) } userId false
    obtain ⟨hmem, hkey⟩ := (Keyed.find?_eq_some_iff h.keys).mp hfind
    cases hkey
    rw [heq]
    constructor
    case userIds =>
      show s.userIds.erase userId = _
      rw [map_eraseP h.keys (h.userIds ▸ h.ids) hmem, ← h.userIds]
    case ids => exact h.ids.erase userId
    case keys => exact h.keys.sublist ((List.eraseP_sublist ..).map Prod.fst)
    case windows => exact h.windows
    case unregistered => exact fun w hw => (hother w hw).trans (h.unregistered w hw)

theorem Inv.insertWindow (h : Inv s) (window : ω) : Inv (s.insertWindow window) := by
  have hsub : ∀ w, w ∉ (s.insertWindow window).windows → w ∉ s.windows := by
    intro w hw hmem
    apply hw
    show w ∈ if s.windows.contains window then s.windows else window :: s.windows
    split
    next => exact hmem
    next => exact .tail window hmem
  refine { h with windows := ?_, unregistered := fun w hw => h.unregistered w (hsub w hw) }
  show (if s.windows.contains window then s.windows else window :: s.windows).Nodup
  split
  next => exact h.windows
  next hnot =>
    exact List.nodup_cons.mpr ⟨fun hmem => hnot (List.contains_iff_mem.mpr hmem), h.windows⟩

theorem mem_insertWindow {w window : ω} :
    w ∈ (s.insertWindow window).windows ↔ w = window ∨ w ∈ s.windows := by
  show (w ∈ if s.windows.contains window then s.windows else window :: s.windows) ↔ _
  split
  next hmem => exact (or_iff_right_of_imp fun h => h ▸ List.contains_iff_mem.mp hmem).symm
  next => exact List.mem_cons

/-! ## Joysticks that are connected -/

/-- Joysticks were connected, and the windows were told so. -/
structure Extends (s₀ s : JoystickManager ω) : Prop where
  inv : Inv s
  windows : s.windows = s₀.windows
  focused : s.focusedWindow = s₀.focusedWindow
  mono : ∀ id ∈ s₀.userIds, id ∈ s.userIds
  told : ∀ w ∈ s₀.windows, ∀ id, Told id (s.received w) ↔
    Told id (s₀.received w) ∨ id ∈ s.userIds ∧ id ∉ s₀.userIds

omit [DecidableEq ω] in
theorem Extends.refl (h : Inv s) : Extends s s where
  inv := h
  windows := rfl
  focused := rfl
  mono _ := id
  told _ _ id := (or_iff_left fun hid : id ∈ s.userIds ∧ id ∉ s.userIds => hid.2 hid.1).symm

theorem Extends.onConnected (h : Extends s₀ s) (joystick : Nat) (mapping : Mapping) :
    Extends s₀ (s.onConnected joystick mapping) := by
  have hinv := h.inv.onConnected joystick mapping
  rw [JoystickManager.onConnected] at hinv ⊢
  split at hinv
  next hskip => rw [if_pos hskip]; exact h
  next hskip =>
    rw [if_neg hskip]
    split at hinv
    next hfind => exact h
    next hfind =>
      have hnew := nextUnassignedUserId_not_mem s.userIds
      generalize nextUnassignedUserId s.userIds = userId at hinv hnew ⊢
      obtain ⟨received, heq, -, htold⟩ := notifyAll_spec
        { s with
          userIds := userId :: s.userIds
          connectedJoysticks := (joystick, userId) :: s.connectedJoysticks } userId true
      rw [heq] at hinv ⊢
      refine ⟨hinv, h.windows, h.focused, fun id hid => .tail userId (h.mono id hid),
        fun w hw id => ?_⟩
      show Told id (received w) ↔
        Told id (s₀.received w) ∨ id ∈ userId :: s.userIds ∧ id ∉ s₀.userIds
      rw [htold w (h.windows ▸ hw) id, h.told w hw id, List.mem_cons]
      have hnew₀ : userId ∉ s₀.userIds := fun hmem => hnew (h.mono userId hmem)
      by_cases hid : userId = id
      · rw [hid] at hnew₀
        exact iff_of_true (.inl ⟨hid, rfl⟩) (.inr ⟨.inl hid.symm, hnew₀⟩)
      · rw [or_iff_right fun h : userId = id ∧ true = true => hid h.1, and_iff_right hid,
          or_iff_right (Ne.symm hid)]

theorem Extends.poll (h : Extends s₀ s) (present : Nat → Bool) (mapping : Nat → Mapping) :
    Extends s₀ (s.poll present mapping) := by
  rw [JoystickManager.poll]
  generalize List.range joystickCount = joysticks
  induction joysticks generalizing s with
  | nil => exact h
  | cons joystick joysticks ih =>
    rw [List.foldl_cons]
    split
    next => exact ih (h.onConnected joystick (mapping joystick))
    next => exact ih h

/-! ## Windows that are added -/

theorem Inv.addWindow (h : Inv s) (window : ω) (present : Nat → Bool) (mapping : Nat → Mapping) :
    Inv (s.addWindow window present mapping) := by
  have hinsert := h.insertWindow window
  rw [JoystickManager.addWindow]
  split
  next => exact ((Extends.refl hinsert).poll present mapping).inv
  next =>
    obtain ⟨received, heq, hother, -⟩ :=
      foldl_onGamepadState (fun _ : Nat × Nat => window) Prod.snd true
      (s.insertWindow window).connectedJoysticks (s.insertWindow window)
    rw [heq]
    refine { hinsert with unregistered := fun w hw => ?_ }
    have hne : window ≠ w := fun h => hw (mem_insertWindow.mpr (.inl h.symm))
    rw [← hinsert.unregistered w hw]
    exact hother w fun _ _ => hne

omit [DecidableEq ω] in
theorem Inv.consistent_iff (h : Inv s) :
    s.Consistent ↔ (∀ w ∈ s.windows, ∀ id, Told id (s.received w) ↔ id ∈ s.userIds) ∧
      ∀ w, s.focusedWindow = some w → w ∈ s.windows :=
  ⟨fun hc => ⟨hc.told, hc.focused⟩,
   fun hc => ⟨fun _ => h.userIds ▸ Iff.rfl, h.userIds ▸ h.ids, hc.1, hc.2⟩⟩

omit [DecidableEq ω] in
/-- Joysticks that are connected one by one make no difference. -/
theorem Extends.consistent (h : Extends s₀ s) (hc : s₀.Consistent) : s.Consistent := by
  refine h.inv.consistent_iff.mpr ⟨fun w hw id => ?_, fun w hw => ?_⟩
  · rw [h.windows] at hw
    rw [h.told w hw id, hc.told w hw id]
    constructor
    · exact fun hid => hid.elim (h.mono id) And.left
    · exact fun hid => (Decidable.em (id ∈ s₀.userIds)).imp_right fun hnot => ⟨hid, hnot⟩
  · rw [h.windows]
    exact hc.focused w (h.focused ▸ hw)

/-- The first window is told of the joysticks that are found, but not of those that were known. -/
theorem addWindow_first (hinv : Inv s) (hc : s.Consistent) (hwindows : s.windows = []) (window : ω)
    (present : Nat → Bool) (mapping : Nat → Mapping) :
    (s.addWindow window present mapping).Consistent ↔ s.connectedJoysticks = [] := by
  have hinsert : (s.insertWindow window).windows = [window] := by
    rw [insertWindow, hwindows]
    rfl
  rw [addWindow, if_pos (by rw [hinsert]; rfl)]
  have hext := (Extends.refl (hinv.insertWindow window)).poll present mapping
  rw [hext.inv.consistent_iff, hext.windows, hinsert]
  have hmem : window ∈ (s.insertWindow window).windows := by
    rw [hinsert]
    exact .head []
  have hempty : s.received window = [] := hinv.unregistered window (hwindows ▸ List.not_mem_nil)
  have htold : ∀ id, Told id ((s.insertWindow window).poll present mapping |>.received window) ↔
      id ∈ ((s.insertWindow window).poll present mapping).userIds ∧ id ∉ s.userIds := by
    intro id
    have hnot : ¬ Told id ((s.insertWindow window).received window) := by
      show ¬ Told id (s.received window)
      rw [hempty]
      exact fun h => h
    rw [hext.told window hmem id, or_iff_right hnot]
    rfl
  constructor
  · rintro ⟨hall, -⟩
    have hnil : s.userIds = [] := by
      refine List.eq_nil_iff_forall_not_mem.mpr fun id hid => ?_
      have hknown := (hall window (.head []) id).mpr (hext.mono id hid)
      exact ((htold id).mp hknown).2 hid
    exact List.map_eq_nil_iff.mp (hinv.userIds.symm.trans hnil)
  · intro hnone
    have huser : s.userIds = [] := by rw [hinv.userIds, hnone]; rfl
    refine ⟨fun w hw id => ?_, fun w hw => ?_⟩
    · rw [List.mem_singleton.mp hw, htold id, huser]
      exact and_iff_left List.not_mem_nil
    · rw [hext.focused] at hw
      have hregistered := hc.focused w hw
      rw [hwindows] at hregistered
      cases hregistered

/-- The other windows are told of all joysticks. -/
theorem addWindow_other (hinv : Inv s) (hc : s.Consistent) (hwindows : s.windows ≠ []) (window : ω)
    (present : Nat → Bool) (mapping : Nat → Mapping) :
    (s.addWindow window present mapping).Consistent := by
  have hinv' := hinv.addWindow window present mapping
  have hfocused : ∀ w, s.focusedWindow = some w → w ∈ (s.insertWindow window).windows :=
    fun w hw => mem_insertWindow.mpr (.inr (hc.focused w hw))
  rw [addWindow] at hinv' ⊢
  split at hinv'
  next hone =>
    -- The only window is shown again.
    rw [if_pos hone]
    refine ((Extends.refl (hinv.insertWindow window)).poll present mapping).consistent ?_
    have hsame : (s.insertWindow window).windows = s.windows := by
      rw [insertWindow] at hone ⊢
      split at hone
      next hmem => exact if_pos hmem
      next => exact absurd (List.length_eq_zero_iff.mp (Nat.succ.inj hone)) hwindows
    refine (hinv.insertWindow window).consistent_iff.mpr ⟨?_, hfocused⟩
    rw [hsame]
    exact hc.told
  next hone =>
    rw [if_neg hone]
    obtain ⟨received, heq, hother, htold⟩ :=
      foldl_onGamepadState (fun _ : Nat × Nat => window) Prod.snd
      true (s.insertWindow window).connectedJoysticks (s.insertWindow window)
    rw [heq] at hinv' ⊢
    refine hinv'.consistent_iff.mpr ⟨fun w hw id => ?_, hfocused⟩
    have hids : id ∈ s.userIds ↔ ∃ j ∈ s.connectedJoysticks, j.2 = id :=
      (hc.userIds id).trans List.mem_map
    have hbefore : Told id (s.received w) → id ∈ s.userIds := by
      intro ht
      by_cases hreg : w ∈ s.windows
      · exact (hc.told w hreg id).mp ht
      · rw [hinv.unregistered w hreg] at ht
        cases ht
    show Told id (received w) ↔ id ∈ s.userIds
    rw [htold w id]
    constructor
    · exact fun h => h.elim (fun ⟨⟨j, hj, _, hid⟩, _⟩ => hids.mpr ⟨j, hj, hid⟩) fun h => hbefore h.2
    · intro hid
      by_cases hne : window = w
      · obtain ⟨j, hj, hj'⟩ := hids.mp hid
        exact .inl ⟨⟨j, hj, hne, hj'⟩, rfl⟩
      · have hreg := (mem_insertWindow.mp hw).resolve_left (Ne.symm hne)
        exact .inr ⟨fun ⟨_, _, h, _⟩ => hne h, (hc.told w hreg id).mpr hid⟩

/-! ## The other calls -/

theorem onDisconnected_consistent (hinv : Inv s) (hc : s.Consistent) (joystick : Nat) :
    (s.onDisconnected joystick).Consistent := by
  have hinv' := hinv.onDisconnected joystick
  rw [onDisconnected] at hinv' ⊢
  split at hinv'
  next => exact hc
  next joystick' userId hfind =>
    obtain ⟨received, heq, -, htold⟩ := notifyAll_spec
      { s with
        userIds := s.userIds.erase userId
        connectedJoysticks := s.connectedJoysticks.eraseP (·.1 = joystick) } userId false
    rw [heq] at hinv' ⊢
    refine hinv'.consistent_iff.mpr ⟨fun w hw id => ?_, hc.focused⟩
    show Told id (received w) ↔ id ∈ s.userIds.erase userId
    rw [htold w hw id, hinv.ids.mem_erase_iff, hc.told w hw id, or_iff_right fun h => nomatch h.2]
    exact and_congr_left' ne_comm

theorem Inv.removeWindow (h : Inv s) (window : ω) : Inv (s.removeWindow window) := by
  refine { h with windows := h.windows.erase window, unregistered := fun w hw => ?_ }
  show Function.update s.received window [] w = []
  by_cases hne : w = window
  · rw [hne, Function.update_self]
  · rw [Function.update_of_ne hne]
    exact h.unregistered w fun hmem => hw ((List.mem_erase_of_ne hne).mpr hmem)

/-- The pointer to the window that has the focus is not reset. -/
theorem removeWindow_consistent_iff (hinv : Inv s) (hc : s.Consistent) (window : ω) :
    (s.removeWindow window).Consistent ↔ s.focusedWindow ≠ some window := by
  rw [(hinv.removeWindow window).consistent_iff]
  constructor
  · rintro ⟨-, hfocused⟩ heq
    exact ((hinv.windows.mem_erase_iff).mp (hfocused window heq)).1 rfl
  · intro hne
    refine ⟨fun w hw id => ?_, fun w hw => ?_⟩
    · obtain ⟨hww, hmem⟩ := hinv.windows.mem_erase_iff.mp hw
      show Told id (Function.update s.received window [] w) ↔ id ∈ s.userIds
      rw [Function.update_of_ne hww]
      exact hc.told w hmem id
    · have hww : w ≠ window := fun h => hne (h ▸ hw)
      exact (List.mem_erase_of_ne hww).mpr (hc.focused w hw)

theorem onWindowFocused_consistent (hc : s.Consistent) {window : ω} (hmem : window ∈ s.windows)
    (focused : Bool) : (s.onWindowFocused window focused).Consistent := by
  rw [onWindowFocused]
  split
  next =>
    refine { hc with focused := fun w hw => ?_ }
    cases hw
    exact hmem
  next =>
    split
    next => exact { hc with focused := fun w hw => nomatch hw }
    next => exact hc

theorem Inv.onWindowFocused (h : Inv s) (window : ω) (focused : Bool) :
    Inv (s.onWindowFocused window focused) := by
  rw [JoystickManager.onWindowFocused]
  split
  next => exact { h with }
  next =>
    split
    next => exact { h with }
    next => exact h

/-! ## Runs -/

theorem Inv.step (h : Inv s) {a : Action ω} (hstep : s.step a = some s') : Inv s' := by
  cases a with
  | addWindow window present mapping => cases hstep; exact h.addWindow window present mapping
  | removeWindow window => cases hstep; exact h.removeWindow window
  | focus window focused =>
    rw [JoystickManager.step] at hstep
    split at hstep
    next => cases hstep; exact h.onWindowFocused window focused
    next => cases hstep
  | connected joystick mapping => cases hstep; exact h.onConnected joystick mapping
  | disconnected joystick => cases hstep; exact h.onDisconnected joystick

theorem step_consistent_iff (hinv : Inv s) (hc : s.Consistent) {a : Action ω}
    (hstep : s.step a = some s') : s'.Consistent ↔ s.CallOk a := by
  cases a with
  | addWindow window present mapping =>
    cases hstep
    by_cases hwindows : s.windows = []
    · rw [addWindow_first hinv hc hwindows]
      exact ⟨fun h _ => h, fun h => h hwindows⟩
    · exact iff_of_true (addWindow_other hinv hc hwindows window present mapping)
        fun h => absurd h hwindows
  | removeWindow window => cases hstep; exact removeWindow_consistent_iff hinv hc window
  | focus window focused =>
    rw [JoystickManager.step] at hstep
    split at hstep
    next hmem =>
      cases hstep
      exact iff_of_true (onWindowFocused_consistent hc (List.contains_iff_mem.mp hmem) focused)
        trivial
    next => cases hstep
  | connected joystick mapping =>
    cases hstep
    exact iff_of_true (((Extends.refl hinv).onConnected joystick mapping).consistent hc) trivial
  | disconnected joystick =>
    cases hstep
    exact iff_of_true (onDisconnected_consistent hinv hc joystick) trivial

omit [DecidableEq ω] in
theorem consistent_init : (init : JoystickManager ω).Consistent where
  userIds _ := Iff.rfl
  distinct := .nil
  told _ h := nomatch h
  focused _ h := nomatch h

/-- The containers, the windows and the focus agree in all states of a run exactly if no window is
the first one while joysticks are connected, and no window is removed that has the focus. -/
theorem consistent_iff_meets (actions : List (Action ω)) (s : JoystickManager ω)
    (h : Runs.run step init actions = some s) :
    (∀ before after t, actions = before ++ after →
      Runs.run step init before = some t → t.Consistent) ↔
      Runs.Meets step CallOk init actions :=
  Runs.meets_iff_forall_append (fun _ _ _ hs => hs.step)
    (fun _ _ _ hs hc => step_consistent_iff hs hc)
    inv_init consistent_init h

/-- A second window is opened while a joystick is connected. -/
def secondWindow : List (Action Bool) :=
  [.addWindow true (fun _ => false) (fun _ => ⟨true, false⟩), .focus true true,
    .connected 3 ⟨true, false⟩,
    .addWindow false (· == 3) (fun _ => ⟨true, false⟩), .focus true false, .removeWindow true]

theorem consistent_secondWindow :
    ∃ s, Runs.run step init secondWindow = some s ∧ s.userIds = [0] ∧ s.windows = [false] ∧
      s.Consistent := by
  refine ⟨_, rfl, by decide, by decide, ?_⟩
  refine (consistent_iff_meets secondWindow _ rfl).mpr ?_ secondWindow [] _ rfl rfl
  refine .cons (fun _ => rfl) rfl (.cons trivial rfl (.cons trivial rfl ?_))
  refine .cons (fun h => nomatch h) rfl (.cons trivial rfl (.cons ?_ rfl trivial))
  exact fun h => nomatch h

/-- A joystick is connected while the only window is open. This window is closed, and the next one
is not told of the joystick. -/
theorem not_consistent_reopened : ¬ ∀ (actions : List (Action Bool)) (s : JoystickManager Bool),
    Runs.run step init actions = some s → s.Consistent := by
  intro h
  have hc := h [.addWindow true (fun _ => false) (fun _ => ⟨true, false⟩),
    .connected 3 ⟨true, false⟩,
    .removeWindow true, .addWindow false (· == 3) (fun _ => ⟨true, false⟩)] _ rfl
  exact (hc.told false (.head []) 0).mpr (.head [])

end JoystickManager

end McpeLauncher.GameWindow
