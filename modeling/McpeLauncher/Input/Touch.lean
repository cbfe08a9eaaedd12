import McpeLauncher.Input.WindowCallbacks

/-!
# Fingers

The first finger on the screen is the one of the ImGui windows, `imGuiTouchId`. Whether the game
gets its start depends on `wantCaptureMouse`, but its movements and its end never go to the game. So
the game sees whole touches only as long as the windows capture each touch that they follow.
-/

namespace McpeLauncher.Input
open Pairing WindowCallbacks

/-- The fingers on the screen, and changes of what the windows want to capture. -/
inductive TouchEvent
  | touchStart (id : Int) (now : Int)
  | touchUpdate (id : Int) (now : Int)
  | touchEnd (id : Int) (now : Int)
  | wantCapture (wants : Bool)

structure TouchRun where
  callbacks : WindowCallbacks
  fingers : List Int

namespace TouchRun

/-- A finger starts only if it is not on the screen, and else happens only what it does there. -/
def step (o : Options) (r : TouchRun) : TouchEvent → Option TouchRun
  | .touchStart id now =>
    if id ∉ r.fingers then some ⟨onTouchStart o r.callbacks id now, id :: r.fingers⟩ else none
  | .touchUpdate id now =>
    if id ∈ r.fingers then some { r with callbacks := onTouchUpdate o r.callbacks id now } else none
  | .touchEnd id now =>
    if id ∈ r.fingers then some ⟨onTouchEnd o r.callbacks id now, r.fingers.filter (· ≠ id)⟩
    else none
  | .wantCapture wants => some { r with callbacks := { r.callbacks with wantCaptureMouse := wants } }

/-- What the game got of the fingers. -/
def marks (s : WindowCallbacks) : List (Int × Mark) :=
  s.sent.filterMap fun
    | .finger id mark => some (id, mark)
    | _ => none

/-- The game got starts, movements and ends in their order, and none of the fingers that left the
screen is down for it. -/
def Paired (r : TouchRun) : Prop :=
  WellPaired (marks r.callbacks) ∧ ∀ id, id ∉ r.fingers → isOpen id (marks r.callbacks) = false

/-- Nothing keeps the touch mode from being active. -/
def TouchActive (o : Options) (s : WindowCallbacks) : Prop :=
  s.sendEvents = true ∧ (o.useRawInput = true ∨ o.forcedMode = .Unknown ∨ o.forcedMode = .Touch)

/-- The touch that the windows will follow starts while they capture it, and no finger has the
number that stands for no finger. -/
def CaptureOk (r : TouchRun) : TouchEvent → Prop
  | .touchStart id _ =>
    id ≠ -1 ∧ (r.callbacks.imGuiTouchId = -1 → r.callbacks.wantCaptureMouse = true)
  | _ => True

variable {o : Options} {s : WindowCallbacks} {r r' : TouchRun} {id : Int}

theorem opens_touch (h : TouchActive o s) (now : Int) : opens o s .Touch true now = true := by
  obtain ⟨hsend, hmode⟩ := h
  by_cases hraw : o.useRawInput = true
  · simp [opens, hsend, hraw]
  · rcases hmode.resolve_left hraw with hforced | hforced
    · cases hinput : s.inputMode with
      | Touch => simp [opens, hsend, hforced, hinput]
      | Mouse => simp [opens, hsend, hforced, hinput, InputMode.toNat]
      | Gamepad => simp [opens, hsend, hforced, hinput, InputMode.toNat]
      | Unknown => simp [opens, hsend, hforced, hinput, InputMode.toNat]
    · simp [opens, hsend, hraw, hforced]

/-! ## What a finger does -/

theorem marks_congr {t : WindowCallbacks} (h : t.sent = s.sent) : marks t = marks s := by
  rw [marks, h, marks]

/-- A state in which only what a finger changes differs. -/
structure Touched (s t : WindowCallbacks) (touchId : Int) (ms : List (Int × Mark)) : Prop where
  sendEvents : t.sendEvents = s.sendEvents
  touchId : t.imGuiTouchId = touchId
  marks : marks t = ms

theorem onTouchStart_spec (ho : o.useImgui = true) (h : TouchActive o s) (id now : Int) :
    Touched s (onTouchStart o s id now) (if s.imGuiTouchId = -1 then id else s.imGuiTouchId)
      (if s.imGuiTouchId = -1 ∧ s.wantCaptureMouse = true then marks s
        else (id, .opened) :: marks s) := by
  have hmarks : marks (switchTo o s .Touch now) = marks s := marks_congr (switchTo_sent ..)
  by_cases hid : s.imGuiTouchId = -1
  · by_cases hwant : s.wantCaptureMouse = true
    · simp only [onTouchStart, opens_touch h, ho, switchTo_imGuiTouchId, hid, hwant, if_true,
        Bool.true_and, decide_true, switchTo_wantCaptureMouse, and_self]
      exact ⟨switchTo_sendEvents .., rfl, hmarks⟩
    · simp only [onTouchStart, opens_touch h, ho, switchTo_imGuiTouchId, hid, hwant, if_true,
        Bool.true_and, decide_true, switchTo_wantCaptureMouse]
      exact ⟨switchTo_sendEvents .., rfl, congrArg _ hmarks⟩
  · simp only [onTouchStart, opens_touch h, ho, switchTo_imGuiTouchId, hid, if_true, Bool.true_and,
      decide_false, false_and, if_false]
    exact ⟨switchTo_sendEvents .., switchTo_imGuiTouchId .., congrArg _ hmarks⟩

theorem onTouchUpdate_spec (ho : o.useImgui = true) (h : TouchActive o s) (id now : Int) :
    Touched s (onTouchUpdate o s id now) s.imGuiTouchId
      (if s.imGuiTouchId = id then marks s else (id, .used) :: marks s) := by
  have hmarks : marks (switchTo o s .Touch now) = marks s := marks_congr (switchTo_sent ..)
  by_cases hid : s.imGuiTouchId = id
  · simp only [onTouchUpdate, opens_touch h, ho, switchTo_imGuiTouchId, hid, if_true,
      Bool.true_and, decide_true]
    exact ⟨switchTo_sendEvents .., (switchTo_imGuiTouchId ..).trans hid, hmarks⟩
  · simp only [onTouchUpdate, opens_touch h, ho, switchTo_imGuiTouchId, hid, if_true,
      Bool.true_and, decide_false, if_false]
    exact ⟨switchTo_sendEvents .., switchTo_imGuiTouchId .., congrArg _ hmarks⟩

theorem onTouchEnd_spec (ho : o.useImgui = true) (h : TouchActive o s) (id now : Int) :
    Touched s (onTouchEnd o s id now) (if s.imGuiTouchId = id then -1 else s.imGuiTouchId)
      (if s.imGuiTouchId = id then marks s else (id, .closed) :: marks s) := by
  have hmarks : marks (switchTo o s .Touch now) = marks s := marks_congr (switchTo_sent ..)
  by_cases hid : s.imGuiTouchId = id
  · simp only [onTouchEnd, opens_touch h, ho, switchTo_imGuiTouchId, hid, if_true,
      Bool.true_and, decide_true]
    exact ⟨switchTo_sendEvents .., rfl, hmarks⟩
  · simp only [onTouchEnd, opens_touch h, ho, switchTo_imGuiTouchId, hid, if_true,
      Bool.true_and, decide_false, if_false]
    exact ⟨switchTo_sendEvents .., switchTo_imGuiTouchId .., congrArg _ hmarks⟩

/-! ## Runs -/

/-- The finger that the windows follow is not down for the game, and all others on the screen
are. -/
structure Inv (o : Options) (r : TouchRun) : Prop where
  active : TouchActive o r.callbacks
  followed : r.callbacks.imGuiTouchId ≠ -1 → r.callbacks.imGuiTouchId ∈ r.fingers ∧
    isOpen r.callbacks.imGuiTouchId (marks r.callbacks) = false
  down : ∀ id ∈ r.fingers, id ≠ -1 ∧
    (id ≠ r.callbacks.imGuiTouchId → isOpen id (marks r.callbacks) = true)
  paired : Paired r

theorem Inv.touchStart (ho : o.useImgui = true) (h : Inv o r) (hnew : id ∉ r.fingers)
    (hid : id ≠ -1)
    (hcapture : r.callbacks.imGuiTouchId = -1 → r.callbacks.wantCaptureMouse = true) (now : Int) :
    Inv o ⟨onTouchStart o r.callbacks id now, id :: r.fingers⟩ := by
  obtain ⟨hsend, htouch, hmarks⟩ := onTouchStart_spec ho h.active id now
  have hactive : TouchActive o (onTouchStart o r.callbacks id now) :=
    ⟨hsend.trans h.active.1, h.active.2⟩
  by_cases hg : r.callbacks.imGuiTouchId = -1
  · -- the windows follow this finger
    rw [if_pos hg] at htouch
    rw [if_pos ⟨hg, hcapture hg⟩] at hmarks
    refine ⟨hactive, fun _ => ?_, fun id' hid' => ?_, ?_, fun id' hid' => ?_⟩
    · simp only [htouch, hmarks]
      exact ⟨.head _, h.paired.2 id hnew⟩
    · simp only [htouch, hmarks]
      rcases List.mem_cons.mp hid' with rfl | hid'
      · exact ⟨hid, fun hne => absurd rfl hne⟩
      · obtain ⟨hne, hopen⟩ := h.down id' hid'
        exact ⟨hne, fun _ => hopen (hg ▸ hne)⟩
    · simp only [hmarks]
      exact h.paired.1
    · simp only [hmarks]
      exact h.paired.2 id' fun hmem => hid' (.tail _ hmem)
  · rw [if_neg hg] at htouch
    rw [if_neg fun hand => hg hand.1] at hmarks
    obtain ⟨hmem, hclosed⟩ := h.followed hg
    have hidg : id ≠ r.callbacks.imGuiTouchId := fun heq => hnew (heq ▸ hmem)
    refine ⟨hactive, fun _ => ?_, fun id' hid' => ?_, ?_, fun id' hid' => ?_⟩
    · simp only [htouch, hmarks, isOpen_opened, decide_eq_false hidg, hclosed]
      exact ⟨.tail _ hmem, rfl⟩
    · simp only [htouch, hmarks, isOpen_opened]
      rcases List.mem_cons.mp hid' with rfl | hid'
      · exact ⟨hid, by simp⟩
      · obtain ⟨hne, hopen⟩ := h.down id' hid'
        exact ⟨hne, fun hneg => by simp [hopen hneg]⟩
    · simp only [hmarks]
      exact ⟨h.paired.2 id hnew, h.paired.1⟩
    · have hne : id ≠ id' := fun heq => hid' (heq ▸ .head _)
      simp only [hmarks, isOpen_opened, decide_eq_false hne, Bool.false_or]
      exact h.paired.2 id' fun hmem => hid' (.tail _ hmem)

theorem Inv.touchUpdate (ho : o.useImgui = true) (h : Inv o r) (hid : id ∈ r.fingers) (now : Int) :
    Inv o { r with callbacks := onTouchUpdate o r.callbacks id now } := by
  obtain ⟨hsend, htouch, hmarks⟩ := onTouchUpdate_spec ho h.active id now
  have hactive : TouchActive o (onTouchUpdate o r.callbacks id now) :=
    ⟨hsend.trans h.active.1, h.active.2⟩
  -- a movement changes nothing of what is open
  have hopen (id' : Int) : isOpen id' (marks (onTouchUpdate o r.callbacks id now)) =
      isOpen id' (marks r.callbacks) := by
    rw [hmarks]
    split <;> rfl
  refine ⟨hactive, ?_, ?_, ?_, fun id' hid' => ?_⟩
  · simp only [htouch, hopen]
    exact h.followed
  · simp only [htouch, hopen]
    exact h.down
  · simp only [hmarks]
    split
    · exact h.paired.1
    · next hg => exact ⟨(h.down id hid).2 (Ne.symm hg), h.paired.1⟩
  · simp only [hopen]
    exact h.paired.2 id' hid'

theorem Inv.touchEnd (ho : o.useImgui = true) (h : Inv o r) (hid : id ∈ r.fingers) (now : Int) :
    Inv o ⟨onTouchEnd o r.callbacks id now, r.fingers.filter (· ≠ id)⟩ := by
  obtain ⟨hsend, htouch, hmarks⟩ := onTouchEnd_spec ho h.active id now
  have hactive : TouchActive o (onTouchEnd o r.callbacks id now) :=
    ⟨hsend.trans h.active.1, h.active.2⟩
  have hmem (id' : Int) : id' ∈ r.fingers.filter (· ≠ id) ↔ id' ∈ r.fingers ∧ id' ≠ id := by
    simp [List.mem_filter]
  by_cases hg : r.callbacks.imGuiTouchId = id
  · rw [if_pos hg] at htouch hmarks
    refine ⟨hactive, fun hne => absurd htouch hne, fun id' hid' => ?_, ?_, fun id' hid' => ?_⟩
    · simp only [hmarks]
      obtain ⟨hid', hne⟩ := (hmem id').mp hid'
      exact ⟨(h.down id' hid').1, fun _ => (h.down id' hid').2 (hg ▸ hne)⟩
    · simp only [hmarks]
      exact h.paired.1
    · simp only [hmarks]
      by_cases heq : id' = id
      · rw [heq, ← hg]
        exact (h.followed (hg ▸ (h.down id hid).1)).2
      · exact h.paired.2 id' fun hin => hid' ((hmem id').mpr ⟨hin, heq⟩)
  · rw [if_neg hg] at htouch hmarks
    refine ⟨hactive, fun hne => ?_, fun id' hid' => ?_, ?_, fun id' hid' => ?_⟩
    · simp only [htouch] at hne ⊢
      obtain ⟨hin, hclosed⟩ := h.followed hne
      simp only [hmarks, isOpen_closed, hclosed, Bool.and_false]
      exact ⟨(hmem _).mpr ⟨hin, hg⟩, trivial⟩
    · obtain ⟨hid', hne⟩ := (hmem id').mp hid'
      obtain ⟨hpos, hopen⟩ := h.down id' hid'
      simp only [htouch, hmarks, isOpen_closed]
      exact ⟨hpos, fun hneg => by simp [hopen hneg, Ne.symm hne]⟩
    · simp only [hmarks]
      exact ⟨(h.down id hid).2 (Ne.symm hg), h.paired.1⟩
    · simp only [hmarks, isOpen_closed]
      by_cases heq : id' = id
      · simp [heq]
      · simp [h.paired.2 id' fun hin => hid' ((hmem id').mpr ⟨hin, heq⟩)]

theorem Inv.step (ho : o.useImgui = true) (h : Inv o r) (hok : CaptureOk r e)
    (hs : step o r e = some r') : Inv o r' := by
  cases e with
  | touchStart id now =>
    obtain ⟨hnew, hr⟩ := Option.ite_none_right_eq_some.mp hs
    cases hr
    exact h.touchStart ho hnew hok.1 hok.2 now
  | touchUpdate id now =>
    obtain ⟨hid, hr⟩ := Option.ite_none_right_eq_some.mp hs
    cases hr
    exact h.touchUpdate ho hid now
  | touchEnd id now =>
    obtain ⟨hid, hr⟩ := Option.ite_none_right_eq_some.mp hs
    cases hr
    exact h.touchEnd ho hid now
  | wantCapture wants =>
    cases hs
    exact ⟨h.active, h.followed, h.down, h.paired⟩

/-- Before the first touch. -/
structure NoTouch (o : Options) (s : WindowCallbacks) : Prop where
  active : TouchActive o s
  touchId : s.imGuiTouchId = -1
  sent : s.sent = []

theorem NoTouch.inv (h : NoTouch o s) : Inv o ⟨s, []⟩ := by
  have hmarks : marks s = [] := by rw [marks, h.sent]; rfl
  refine ⟨h.active, fun hne => absurd h.touchId hne, fun id hid => absurd hid List.not_mem_nil, ?_,
    fun id _ => ?_⟩
  · rw [hmarks]
    trivial
  · rw [hmarks]
    rfl

/-- If the windows capture each touch that they follow, the game gets whole touches. -/
theorem paired_run (o : Options) (ho : o.useImgui = true) (s : WindowCallbacks) (hs : NoTouch o s)
    (es : List TouchEvent) (hok : Runs.Meets (step o) CaptureOk ⟨s, []⟩ es)
    (hrun : Runs.run (step o) ⟨s, []⟩ es = some r) : Paired r :=
  (hok.inv_of_run (fun _ _ _ h hok hs => h.step ho hok hs) hs.inv hrun).paired

theorem noTouch_initial : NoTouch .imgui (initial []) := ⟨⟨rfl, .inr (.inl rfl)⟩, rfl, rfl⟩

/-- Two fingers, the first of which is captured. -/
def twoFingers : List TouchEvent :=
  [.wantCapture true, .touchStart 1 0, .wantCapture false, .touchStart 2 10, .touchUpdate 2 20,
    .touchEnd 1 30, .touchEnd 2 40]

theorem paired_run_twoFingers :
    (Runs.run (step .imgui) ⟨initial [], []⟩ twoFingers).isSome = true ∧
      ∀ r, Runs.run (step .imgui) ⟨initial [], []⟩ twoFingers = some r → Paired r := by
  refine ⟨rfl, fun r => paired_run .imgui rfl (initial []) noTouch_initial twoFingers ?_⟩
  refine .cons trivial rfl (.cons ⟨by decide, fun _ => rfl⟩ rfl (.cons trivial rfl ?_))
  refine .cons ⟨by decide, fun h => absurd h (by decide)⟩ rfl (.cons trivial rfl ?_)
  exact .cons trivial rfl (.cons trivial rfl trivial)

/-- A finger touches the screen and leaves it, with no window that captures it. -/
theorem not_paired_oneFinger : ∃ r, Runs.run (step .imgui) ⟨initial [], []⟩
    [.touchStart 1 0, .touchEnd 1 10] = some r ∧ ¬Paired r := by
  refine ⟨_, rfl, fun h => ?_⟩
  have hdown := h.2 1 (by decide)
  exact absurd hdown (by decide)

end TouchRun

end McpeLauncher.Input
