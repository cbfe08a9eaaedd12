import McpeLauncher.Input.WindowCallbacks

/-!
# Buttons

The release of a button goes through the same gate as its press. If another device was used in
between, the release may be dropped; the button then stays down for the game. This does not happen
if each release of a button that is down gets through.
-/

namespace McpeLauncher.Input
open Pairing WindowCallbacks

/-- The events of the devices, and what the game and the windows do in between. Callbacks of mods
may take the event of a mouse button or of the key that it stands for. -/
inductive InputEvent
  | startSendEvents
  | wantCapture (mouse keyboard : Bool)
  | setCursorLocked (locked : Bool) (now : Int)
  | mouseButton (btn : Nat) (pressed taken keyTaken : Bool) (now : Int)
  | mousePosition (taken : Bool) (now : Int)
  | mouseRelativePosition (large taken : Bool) (now : Int)
  | touchStart (id now : Int)
  | touchUpdate (id now : Int)
  | touchEnd (id now : Int)
  | gamepadButton (gamepad : Int) (btn : GamepadButtonId) (pressed : Bool) (now : Int)
  | gamepadAxis (gamepad : Int) (large : Bool) (now : Int)
  | markRequeueGamepadInput

/-- The state with the buttons that are held down. -/
structure ButtonRun where
  callbacks : WindowCallbacks
  held : List Button

namespace ButtonRun

/-- The buttons held after a press or a release. -/
def holding (held : List Button) (b : Button) (pressed : Bool) : List Button :=
  if pressed then b :: held else held.filter (· ≠ b)

/-- A button is pressed only if it is not held, and released only if it is. -/
def hold (r : ButtonRun) (b : Button) (pressed : Bool) (s : WindowCallbacks) : Option ButtonRun :=
  if pressed = decide (b ∉ r.held) then some ⟨s, holding r.held b pressed⟩ else none

def step (o : Options) (r : ButtonRun) : InputEvent → Option ButtonRun
  | .startSendEvents => some { r with callbacks := r.callbacks.startSendEvents }
  | .wantCapture mouse keyboard => some { r with callbacks :=
      { r.callbacks with wantCaptureMouse := mouse, wantCaptureKeyboard := keyboard } }
  | .setCursorLocked locked now =>
    some { r with callbacks := setCursorLocked o r.callbacks locked now }
  | .mouseButton btn pressed taken keyTaken now =>
    r.hold (.mouse btn) pressed (onMouseButton o r.callbacks btn pressed taken keyTaken now)
  | .mousePosition taken now => some { r with callbacks := onMousePosition o r.callbacks taken now }
  | .mouseRelativePosition large taken now =>
    some { r with callbacks := onMouseRelativePosition o r.callbacks large taken now }
  | .touchStart id now => some { r with callbacks := onTouchStart o r.callbacks id now }
  | .touchUpdate id now => some { r with callbacks := onTouchUpdate o r.callbacks id now }
  | .touchEnd id now => some { r with callbacks := onTouchEnd o r.callbacks id now }
  | .gamepadButton gamepad btn pressed now =>
    r.hold (.gamepad gamepad btn) pressed (onGamepadButton o r.callbacks gamepad btn pressed now)
  | .gamepadAxis gamepad large now =>
    some { r with callbacks := onGamepadAxis o r.callbacks gamepad large now }
  | .markRequeueGamepadInput => some { r with callbacks := r.callbacks.markRequeueGamepadInput }

/-- The mark of a press or of a release. -/
def mark (pressed : Bool) : Mark := if pressed then .opened else .closed

/-- Presses and releases that the game got. -/
def marks (s : WindowCallbacks) : List (Button × Mark) :=
  s.sent.filterMap fun
    | .button b pressed _ => some (b, mark pressed)
    | _ => none

/-- Once all buttons are released, they are released for the launcher and for the game. -/
def NoStuck (r : ButtonRun) : Prop :=
  r.held = [] → r.callbacks.buttonState = 0 ∧
    (∀ gamepad button, r.callbacks.gamepads gamepad = some button → ∀ btn, button btn = false) ∧
    ∀ newer older b, marks r.callbacks = newer ++ (b, .opened) :: older → (b, .closed) ∈ newer

/-- Behind the gate, the event of a mouse button is sent to the game. -/
def Delivered (o : Options) (s : WindowCallbacks) (btn : Nat) (taken keyTaken : Bool) : Prop :=
  taken = false ∧ 1 ≤ btn ∧
    ¬(o.useImgui = true ∧ btn ≤ 3 ∧ s.wantCaptureMouse = true ∧ s.cursorDisabled = false) ∧
    (o.emulateTouch = false → 3 < btn →
      keyTaken = false ∧ ¬(o.useImgui = true ∧ s.wantCaptureKeyboard = true))

/-- The button of a connected gamepad is down for the launcher. -/
def Down (s : WindowCallbacks) (gamepad : Int) (btn : GamepadButtonId) : Prop :=
  ∃ button, s.gamepads gamepad = some button ∧ button btn = true

/-- The gate is open for the release of a button that is down, and nobody takes the event. -/
def ReleaseOk (o : Options) (r : ButtonRun) : InputEvent → Prop
  | .mouseButton btn false taken keyTaken now =>
    isOpen (.mouse btn) (marks r.callbacks) = true → opens o r.callbacks .Mouse true now = true ∧
      Delivered o (switchTo o r.callbacks .Mouse now) btn taken keyTaken
  | .gamepadButton gamepad btn false now =>
    Down r.callbacks gamepad btn → opens o r.callbacks .Gamepad true now = true
  | _ => True

variable {o : Options} {s t : WindowCallbacks} {r r' : ButtonRun}

/-! ## Events that are not of buttons -/

/-- No button changes. -/
structure Quiet (s t : WindowCallbacks) : Prop where
  buttonState : t.buttonState = s.buttonState
  gamepads : t.gamepads = s.gamepads
  marks : marks t = marks s

theorem Quiet.refl (s : WindowCallbacks) : Quiet s s := ⟨rfl, rfl, rfl⟩

theorem Quiet.trans {u : WindowCallbacks} (h : Quiet s t) (h' : Quiet t u) : Quiet s u :=
  ⟨h'.buttonState.trans h.buttonState, h'.gamepads.trans h.gamepads, h'.marks.trans h.marks⟩

theorem Quiet.ite {u : WindowCallbacks} {c : Prop} [Decidable c] (h : Quiet s t) (h' : Quiet s u) :
    Quiet s (if c then t else u) := by
  split
  · exact h
  · exact h'

theorem quiet_switchTo (o : Options) (s : WindowCallbacks) (want : InputMode) (now : Int) :
    Quiet s (switchTo o s want now) :=
  ⟨switchTo_buttonState .., switchTo_gamepads .., by rw [marks, switchTo_sent, marks]⟩

/-- What happens behind the gate, or nothing. -/
theorem Quiet.gate {c : Prop} [Decidable c] (o : Options) (want : InputMode) (now : Int)
    (h : Quiet (switchTo o s want now) t) : Quiet s (if c then t else s) :=
  .ite ((quiet_switchTo o s want now).trans h) (.refl s)

theorem quiet_moved (s : WindowCallbacks) : Quiet s (s.send .moved) := ⟨rfl, rfl, rfl⟩

theorem quiet_finger (s : WindowCallbacks) (id : Int) (mark : Mark) :
    Quiet s (s.send (.finger id mark)) := ⟨rfl, rfl, rfl⟩

theorem quiet_setCursorLocked (o : Options) (s : WindowCallbacks) (locked : Bool) (now : Int) :
    Quiet s (setCursorLocked o s locked now) := by
  have hlocked : Quiet s { s with cursorLocked := locked } := ⟨rfl, rfl, rfl⟩
  exact hlocked.trans (.gate o .Mouse now ⟨rfl, rfl, rfl⟩)

theorem quiet_onMousePosition (o : Options) (s : WindowCallbacks) (taken : Bool) (now : Int) :
    Quiet s (onMousePosition o s taken now) :=
  .gate o .Mouse now (.ite (.refl _) (quiet_moved _))

theorem quiet_onMouseRelativePosition (o : Options) (s : WindowCallbacks) (large taken : Bool)
    (now : Int) : Quiet s (onMouseRelativePosition o s large taken now) :=
  .gate o .Mouse now (.ite (.refl _) (quiet_moved _))

theorem quiet_onTouchStart (o : Options) (s : WindowCallbacks) (id now : Int) :
    Quiet s (onTouchStart o s id now) :=
  .gate o .Touch now (.ite (.ite ⟨rfl, rfl, rfl⟩ ⟨rfl, rfl, rfl⟩) (quiet_finger ..))

theorem quiet_onTouchUpdate (o : Options) (s : WindowCallbacks) (id now : Int) :
    Quiet s (onTouchUpdate o s id now) :=
  .gate o .Touch now (.ite (.refl _) (quiet_finger ..))

theorem quiet_onTouchEnd (o : Options) (s : WindowCallbacks) (id now : Int) :
    Quiet s (onTouchEnd o s id now) :=
  .gate o .Touch now (.ite ⟨rfl, rfl, rfl⟩ (quiet_finger ..))

theorem quiet_queueMoved (o : Options) (s : WindowCallbacks) :
    Quiet s (queueGamepadAxisInputIfNeeded o s .moved) :=
  .ite ⟨rfl, rfl, rfl⟩ (.ite ⟨rfl, rfl, rfl⟩ (.refl s))

theorem quiet_onGamepadAxis (o : Options) (s : WindowCallbacks) (gamepad : Int) (large : Bool)
    (now : Int) : Quiet s (onGamepadAxis o s gamepad large now) := by
  refine .gate o .Gamepad now ?_
  dsimp only
  split
  · exact .refl _
  · exact quiet_queueMoved o _

/-! ## Buttons of the mouse -/

/-- The button state for the three buttons that have a bit in it. -/
def mask (f : Nat → Bool) : BitVec 32 :=
  (if f 1 then 1 else 0) ||| (if f 2 then 2 else 0) ||| (if f 3 then 4 else 0)

theorem mask_congr {f g : Nat → Bool} (h : ∀ btn, 1 ≤ btn → btn ≤ 3 → f btn = g btn) :
    mask f = mask g := by
  rw [mask, h 1 (by decide) (by decide), h 2 (by decide) (by decide), h 3 (by decide) (by decide),
    mask]

/-- The bit of a button is set or cleared. -/
theorem mask_update {f : Nat → Bool} (h1 : 1 ≤ btn) (h3 : btn ≤ 3) (pressed : Bool) :
    mask (fun b => if btn = b then pressed else f b) =
      if pressed then mask f ||| mapMouseButtonToAndroid btn
      else mask f &&& ~~~mapMouseButtonToAndroid btn := by
  have hbits : ∀ p x y z : Bool, ∀ b ∈ [1, 2, 3],
      ((if if b = 1 then p else x then 1 else 0) ||| (if if b = 2 then p else y then 2 else 0) |||
        (if if b = 3 then p else z then 4 else 0) : BitVec 32) =
      if p then (if x then 1 else 0) ||| (if y then 2 else 0) ||| (if z then 4 else 0) |||
          mapMouseButtonToAndroid b
      else ((if x then 1 else 0) ||| (if y then 2 else 0) ||| (if z then 4 else 0)) &&&
        ~~~mapMouseButtonToAndroid b := by
    decide
  have hbtn : btn ∈ [1, 2, 3] := by
    simp only [List.mem_cons, List.not_mem_nil, or_false]
    omega
  exact hbits pressed (f 1) (f 2) (f 3) btn hbtn

/-- The event of a mouse button gets to the game. -/
structure MouseSent (o : Options) (s t : WindowCallbacks) (btn : Nat) (pressed : Bool) : Prop where
  marks : marks t = (.mouse btn, mark pressed) :: marks s
  gamepads : t.gamepads = s.gamepads
  buttonState : t.buttonState =
    if o.emulateTouch = false ∧ o.useDirectMouseInput = false ∧ 1 ≤ btn ∧ btn ≤ 3 then
      (if pressed then s.buttonState ||| mapMouseButtonToAndroid btn
        else s.buttonState &&& ~~~mapMouseButtonToAndroid btn)
    else s.buttonState

/-- The higher buttons of the mouse. -/
theorem onKeyboard_spec (o : Options) (s : WindowCallbacks) (hkey : 3 < btn)
    (pressed keyTaken : Bool) :
    (Quiet s (onKeyboard o s btn pressed keyTaken) ∧
      ¬(keyTaken = false ∧ ¬(o.useImgui = true ∧ s.wantCaptureKeyboard = true))) ∨
      MouseSent o s (onKeyboard o s btn pressed keyTaken) btn pressed := by
  unfold onKeyboard
  split
  · next htaken => exact .inl ⟨.refl s, fun h => by simp [htaken] at h⟩
  · split
    · next hcapture => exact .inl ⟨.refl s, fun h => h.2 (by simpa using hcapture)⟩
    · exact .inr ⟨rfl, rfl, (if_neg (by omega)).symm⟩

theorem sendMouseButton_spec (o : Options) (s : WindowCallbacks) (btn : Nat)
    (pressed taken keyTaken : Bool) :
    (Quiet s (sendMouseButton o s btn pressed taken keyTaken) ∧ ¬Delivered o s btn taken keyTaken) ∨
      MouseSent o s (sendMouseButton o s btn pressed taken keyTaken) btn pressed := by
  unfold sendMouseButton
  split
  · next htaken => exact .inl ⟨.refl s, fun h => absurd (h.1.symm.trans htaken) (by simp)⟩
  · split
    · next hbtn => exact .inl ⟨.refl s, fun h => absurd h.2.1 (by omega)⟩
    · split
      · next hcapture =>
        refine .inl ⟨.refl s, fun h => h.2.2.1 ?_⟩
        simpa [and_assoc] using hcapture
      · split
        · next htouch => exact .inr ⟨rfl, rfl, (if_neg (by simp [htouch])).symm⟩
        · next htouch =>
          have htouch : o.emulateTouch = false := by simpa using htouch
          split
          · next hkey =>
            exact (onKeyboard_spec o s hkey pressed keyTaken).imp_left fun h =>
              ⟨h.1, fun hd => h.2 (hd.2.2.2 htouch hkey)⟩
          · next hkey =>
            split
            · next hdirect => exact .inr ⟨rfl, rfl, (if_neg (by simp [hdirect])).symm⟩
            · next hdirect =>
              have hdirect : o.useDirectMouseInput = false := by simpa using hdirect
              exact .inr ⟨rfl, rfl, (if_pos ⟨htouch, hdirect, by omega, by omega⟩).symm⟩

/-! ## Buttons of the gamepads -/

/-- A button of a gamepad changes. The game gets no event for a button of the directional pad if the
axes are read from the queue. -/
structure GamepadSent (o : Options) (s t : WindowCallbacks) (gamepad : Int) (btn : GamepadButtonId)
    (pressed : Bool) : Prop where
  gamepads : ∃ button, s.gamepads gamepad = some button ∧ button btn = !pressed ∧
    t.gamepads = Function.update s.gamepads gamepad (some (Function.update button btn pressed))
  marks : marks t = if btn.isDpad && !o.isGameActivityVersion then marks s
    else (.gamepad gamepad btn, mark pressed) :: marks s
  buttonState : t.buttonState = s.buttonState

theorem sendGamepadButton_spec (o : Options) (s : WindowCallbacks) (gamepad : Int)
    (btn : GamepadButtonId) (pressed : Bool) :
    (Quiet s (sendGamepadButton o s gamepad btn pressed) ∧
      ∀ button, s.gamepads gamepad = some button → button btn = pressed) ∨
      GamepadSent o s (sendGamepadButton o s gamepad btn pressed) gamepad btn pressed := by
  unfold sendGamepadButton
  split
  · next hnone => exact .inl ⟨.refl s, by simp [hnone]⟩
  · next button hbutton =>
    split
    · next hsame =>
      refine .inl ⟨.refl s, fun button' hbutton' => ?_⟩
      cases hbutton.symm.trans hbutton'
      exact hsame
    · next hdiff =>
      have hnot : button btn = !pressed := Bool.eq_not.mpr hdiff
      refine .inr ?_
      dsimp only
      split
      · next hdpad =>
        unfold queueGamepadAxisInputIfNeeded
        split
        · next hgame => exact ⟨⟨button, hbutton, hnot, rfl⟩, by simp [hgame]; rfl, rfl⟩
        · next hgame =>
          have hmarks : ∀ u : WindowCallbacks, u.sent = s.sent → ButtonRun.marks u =
              if btn.isDpad && !o.isGameActivityVersion then ButtonRun.marks s
              else (.gamepad gamepad btn, mark pressed) :: ButtonRun.marks s := by
            intro u hu
            rw [if_pos (by simp [hdpad, hgame]), ButtonRun.marks, hu, ButtonRun.marks]
          split
          · exact ⟨⟨button, hbutton, hnot, rfl⟩, hmarks s rfl, rfl⟩
          · exact ⟨⟨button, hbutton, hnot, rfl⟩, hmarks _ rfl, rfl⟩
      · next hdpad =>
        exact ⟨⟨button, hbutton, hnot, rfl⟩, by simp [hdpad]; rfl, rfl⟩

/-! ## Runs -/

/-- What is down for the launcher or for the game is held. -/
structure Inv (o : Options) (r : ButtonRun) : Prop where
  held : ∀ b, isOpen b (marks r.callbacks) = true → b ∈ r.held
  gamepads : ∀ gamepad btn, Down r.callbacks gamepad btn → .gamepad gamepad btn ∈ r.held
  marked : ∀ gamepad btn, isOpen (.gamepad gamepad btn) (marks r.callbacks) = true →
    (btn.isDpad && !o.isGameActivityVersion) = false ∧ Down r.callbacks gamepad btn
  buttonState : r.callbacks.buttonState =
    if o.emulateTouch = false ∧ o.useDirectMouseInput = false then
      mask fun btn => isOpen (.mouse btn) (marks r.callbacks) else 0

/-- Nothing changes but the buttons held, which lose none that is down. -/
theorem Inv.quiet {held : List Button} (h : Inv o r) (hq : Quiet r.callbacks t)
    (hheld : ∀ b ∈ r.held, (isOpen b (marks r.callbacks) = true ∨
      ∃ gamepad btn, b = .gamepad gamepad btn ∧ Down r.callbacks gamepad btn) → b ∈ held) :
    Inv o ⟨t, held⟩ := by
  have hdown (gamepad : Int) (btn : GamepadButtonId) :
      Down t gamepad btn ↔ Down r.callbacks gamepad btn := by
    rw [Down, hq.gamepads, Down]
  constructor
  · simp only [hq.marks]
    exact fun b hb => hheld b (h.held b hb) (.inl hb)
  · simp only [hdown]
    exact fun gamepad btn hbtn => hheld _ (h.gamepads gamepad btn hbtn) (.inr ⟨_, _, rfl, hbtn⟩)
  · simp only [hq.marks, hdown]
    exact h.marked
  · simp only [hq.marks, hq.buttonState]
    exact h.buttonState

theorem isOpen_mark (b b' : Button) (pressed : Bool) (log : List (Button × Mark)) :
    isOpen b' ((b, mark pressed) :: log) = if b = b' then pressed else isOpen b' log := by
  cases pressed <;> rfl

theorem mem_holding {held : List Button} :
    b' ∈ holding held b pressed ↔ if b = b' then pressed = true else b' ∈ held := by
  cases pressed with
  | true =>
    by_cases hb : b = b'
    · simp [holding, hb]
    · simp [holding, hb, Ne.symm hb]
  | false =>
    by_cases hb : b = b'
    · simp [holding, hb]
    · simp [holding, hb, Ne.symm hb]

/-- A mouse button is pressed or released for the game. -/
theorem Inv.mouseSent (h : Inv o r) (hs : MouseSent o r.callbacks t btn pressed) :
    Inv o ⟨t, holding r.held (.mouse btn) pressed⟩ := by
  constructor
  · intro b hb
    simp only [hs.marks, isOpen_mark] at hb
    rw [mem_holding]
    split
    · next heq => rwa [if_pos heq] at hb
    · next hne =>
      rw [if_neg hne] at hb
      exact h.held b hb
  · intro gamepad b hb
    rw [Down, hs.gamepads] at hb
    rw [mem_holding, if_neg (by simp)]
    exact h.gamepads gamepad b hb
  · intro gamepad b hb
    simp only [hs.marks, isOpen_mark, reduceCtorEq, if_false] at hb
    rw [Down, hs.gamepads]
    exact h.marked gamepad b hb
  · simp only [hs.marks, hs.buttonState, isOpen_mark, Button.mouse.injEq, h.buttonState]
    by_cases hbits : o.emulateTouch = false ∧ o.useDirectMouseInput = false
    · rw [if_pos hbits, if_pos hbits]
      by_cases hbtn : 1 ≤ btn ∧ btn ≤ 3
      · rw [if_pos ⟨hbits.1, hbits.2, hbtn⟩, mask_update hbtn.1 hbtn.2]
      · rw [if_neg fun hall => hbtn hall.2.2]
        refine mask_congr fun b h1 h3 => (if_neg ?_).symm
        rintro rfl
        exact hbtn ⟨h1, h3⟩
    · rw [if_neg hbits, if_neg hbits, if_neg fun hall => hbits ⟨hall.1, hall.2.1⟩]

theorem GamepadSent.down_iff (hs : GamepadSent o s t gamepad btn pressed) (gamepad' : Int)
    (btn' : GamepadButtonId) : Down t gamepad' btn' ↔
      if Button.gamepad gamepad btn = .gamepad gamepad' btn' then pressed = true
      else Down s gamepad' btn' := by
  obtain ⟨button, hbutton, _, hgamepads⟩ := hs.gamepads
  rw [Down, hgamepads]
  by_cases hg : gamepad = gamepad'
  · subst hg
    by_cases hb : btn = btn'
    · subst hb
      simp
    · simp [hb, Ne.symm hb, Down, hbutton]
  · simp [hg, Ne.symm hg, Down]

/-- The game gets the event of the button, except for the directional pad in the queue. -/
theorem GamepadSent.isOpen_iff (hs : GamepadSent o s t gamepad btn pressed) (b : Button)
    (hne : (btn.isDpad && !o.isGameActivityVersion) = true → Button.gamepad gamepad btn ≠ b) :
    isOpen b (ButtonRun.marks t) =
      if Button.gamepad gamepad btn = b then pressed else isOpen b (ButtonRun.marks s) := by
  rw [hs.marks]
  split
  · next hquiet => rw [if_neg (hne hquiet)]
  · exact isOpen_mark ..

theorem Inv.gamepadSent (h : Inv o r) (hs : GamepadSent o r.callbacks t gamepad btn pressed) :
    Inv o ⟨t, holding r.held (.gamepad gamepad btn) pressed⟩ := by
  -- a button of the directional pad in the queue is never down for the game
  have hopen (b : Button) (hb : isOpen b (marks t) = true) :
      if Button.gamepad gamepad btn = b then
        pressed = true ∧ (btn.isDpad && !o.isGameActivityVersion) = false
      else isOpen b (marks r.callbacks) = true := by
    by_cases hquiet : (btn.isDpad && !o.isGameActivityVersion) = true
    · rw [hs.marks, if_pos hquiet] at hb
      rw [if_neg]
      · exact hb
      · rintro rfl
        exact absurd (h.marked gamepad btn hb).1 (by simp [hquiet])
    · rw [hs.isOpen_iff b fun hq => absurd hq hquiet] at hb
      split
      · next heq =>
        rw [if_pos heq] at hb
        exact ⟨hb, by simpa using hquiet⟩
      · next hne => rwa [if_neg hne] at hb
  constructor
  · intro b hb
    have hmark := hopen b hb
    rw [mem_holding]
    by_cases heq : Button.gamepad gamepad btn = b
    · rw [if_pos heq] at hmark ⊢
      exact hmark.1
    · rw [if_neg heq] at hmark ⊢
      exact h.held b hmark
  · intro gamepad' btn' hdown
    rw [hs.down_iff] at hdown
    rw [mem_holding]
    by_cases heq : Button.gamepad gamepad btn = .gamepad gamepad' btn'
    · rwa [if_pos heq] at hdown ⊢
    · rw [if_neg heq] at hdown ⊢
      exact h.gamepads gamepad' btn' hdown
  · intro gamepad' btn' hb
    have hmark := hopen _ hb
    rw [hs.down_iff]
    by_cases heq : Button.gamepad gamepad btn = .gamepad gamepad' btn'
    · rw [if_pos heq] at hmark ⊢
      cases heq
      exact ⟨hmark.2, hmark.1⟩
    · rw [if_neg heq] at hmark ⊢
      exact h.marked gamepad' btn' hmark
  · have hmouse (b : Nat) : isOpen (.mouse b) (marks t) = isOpen (.mouse b) (marks r.callbacks) :=
      (hs.isOpen_iff (.mouse b) fun _ => by simp).trans (if_neg (by simp))
    simp only [hs.buttonState, hmouse]
    exact h.buttonState

/-- A press or a release that changes nothing. A button that is released was not down. -/
theorem Inv.quiet_holding (h : Inv o r) (hq : Quiet r.callbacks t)
    (hb : pressed = false → isOpen b (marks r.callbacks) = false ∧
      ∀ gamepad btn, b = .gamepad gamepad btn → ¬Down r.callbacks gamepad btn) :
    Inv o ⟨t, holding r.held b pressed⟩ := by
  apply h.quiet hq
  intro b' hb' hdown
  rw [mem_holding]
  split
  · next heq =>
    subst heq
    by_contra hrelease
    obtain ⟨hclosed, hup⟩ := hb (by simpa using hrelease)
    rcases hdown with hopen | ⟨gamepad, btn, heq, hdown⟩
    · exact absurd (hclosed.symm.trans hopen) (by simp)
    · exact hup gamepad btn heq hdown
  · exact hb'

theorem Inv.switchTo (h : Inv o r) (want : InputMode) (now : Int) :
    Inv o ⟨switchTo o r.callbacks want now, r.held⟩ :=
  h.quiet (quiet_switchTo ..) fun _ hb _ => hb

theorem Inv.mouseButton (h : Inv o r) (taken keyTaken : Bool)
    (hok : pressed = false → isOpen (.mouse btn) (marks r.callbacks) = true →
      opens o r.callbacks .Mouse true now = true ∧
        Delivered o (WindowCallbacks.switchTo o r.callbacks .Mouse now) btn taken keyTaken) :
    Inv o ⟨onMouseButton o r.callbacks btn pressed taken keyTaken now,
      holding r.held (.mouse btn) pressed⟩ := by
  unfold onMouseButton
  split
  · have hq := quiet_switchTo o r.callbacks .Mouse now
    rcases sendMouseButton_spec o (WindowCallbacks.switchTo o r.callbacks .Mouse now) btn pressed
      taken keyTaken with ⟨hsame, hnot⟩ | hsent
    · refine h.quiet_holding (hq.trans hsame) fun hrelease => ⟨?_, by simp⟩
      by_contra hopen
      exact hnot (hok hrelease (by simpa using hopen)).2
    · exact (h.switchTo .Mouse now).mouseSent hsent
  · next hgate =>
    refine h.quiet_holding (.refl _) fun hrelease => ⟨?_, by simp⟩
    by_contra hopen
    exact hgate (hok hrelease (by simpa using hopen)).1

theorem Inv.gamepadButton (h : Inv o r)
    (hok : pressed = false → Down r.callbacks gamepad btn →
      opens o r.callbacks .Gamepad true now = true) :
    Inv o ⟨onGamepadButton o r.callbacks gamepad btn pressed now,
      holding r.held (.gamepad gamepad btn) pressed⟩ := by
  -- a button that is not down for the launcher is not down for the game
  have hup (hnot : ¬Down r.callbacks gamepad btn) :
      isOpen (.gamepad gamepad btn) (marks r.callbacks) = false ∧ ∀ gamepad' btn',
        Button.gamepad gamepad btn = .gamepad gamepad' btn' → ¬Down r.callbacks gamepad' btn' := by
    constructor
    · by_contra hopen
      exact hnot (h.marked gamepad btn (by simpa using hopen)).2
    · rintro gamepad' btn' heq
      cases heq
      exact hnot
  unfold onGamepadButton
  split
  · have hq := quiet_switchTo o r.callbacks .Gamepad now
    rcases sendGamepadButton_spec o (WindowCallbacks.switchTo o r.callbacks .Gamepad now) gamepad btn
      pressed with ⟨hsame, hbutton⟩ | hsent
    · refine h.quiet_holding (hq.trans hsame) fun hrelease => hup ?_
      rintro ⟨button, hgamepad, hdown⟩
      rw [hq.gamepads] at hbutton
      exact absurd (hdown.symm.trans (hbutton button hgamepad)) (by simp [hrelease])
    · exact (h.switchTo .Gamepad now).gamepadSent hsent
  · next hgate => exact h.quiet_holding (.refl _) fun hrelease => hup fun hd => hgate (hok hrelease hd)

theorem hold_eq_some (h : r.hold b pressed t = some r') :
    r' = ⟨t, holding r.held b pressed⟩ := by
  unfold hold at h
  split at h
  · exact (Option.some.inj h).symm
  · cases h

theorem Inv.step (h : Inv o r) (hok : ReleaseOk o r e) (hs : step o r e = some r') : Inv o r' := by
  have hquiet {t : WindowCallbacks} (hq : Quiet r.callbacks t) : Inv o { r with callbacks := t } :=
    h.quiet hq fun _ hb _ => hb
  cases e with
  | startSendEvents => cases hs; exact hquiet ⟨rfl, rfl, rfl⟩
  | wantCapture mouse keyboard => cases hs; exact hquiet ⟨rfl, rfl, rfl⟩
  | setCursorLocked locked now => cases hs; exact hquiet (quiet_setCursorLocked ..)
  | mouseButton btn pressed taken keyTaken now =>
    rw [hold_eq_some hs]
    apply h.mouseButton taken keyTaken
    intro hrelease
    subst hrelease
    exact hok
  | mousePosition taken now => cases hs; exact hquiet (quiet_onMousePosition ..)
  | mouseRelativePosition large taken now => cases hs; exact hquiet (quiet_onMouseRelativePosition ..)
  | touchStart id now => cases hs; exact hquiet (quiet_onTouchStart ..)
  | touchUpdate id now => cases hs; exact hquiet (quiet_onTouchUpdate ..)
  | touchEnd id now => cases hs; exact hquiet (quiet_onTouchEnd ..)
  | gamepadButton gamepad btn pressed now =>
    rw [hold_eq_some hs]
    apply h.gamepadButton
    intro hrelease
    subst hrelease
    exact hok
  | gamepadAxis gamepad large now => cases hs; exact hquiet (quiet_onGamepadAxis ..)
  | markRequeueGamepadInput => cases hs; exact hquiet ⟨rfl, rfl, rfl⟩

theorem Inv.noStuck (h : Inv o r) : NoStuck r := by
  intro hnil
  have hclosed (b : Button) : isOpen b (marks r.callbacks) = false := by
    by_contra hopen
    have hb := h.held b (by simpa using hopen)
    rw [hnil] at hb
    exact absurd hb List.not_mem_nil
  refine ⟨?_, fun gamepad button hbutton btn => ?_, fun newer older b hlog => ?_⟩
  · rw [h.buttonState]
    simp [mask, hclosed]
  · by_contra hdown
    have hb := h.gamepads gamepad btn ⟨button, hbutton, by simpa using hdown⟩
    rw [hnil] at hb
    exact absurd hb List.not_mem_nil
  · exact closed_of_not_isOpen (hlog ▸ hclosed b)

/-- Before the first press. -/
structure NoPress (s : WindowCallbacks) : Prop where
  buttonState : s.buttonState = 0
  gamepads : ∀ gamepad button, s.gamepads gamepad = some button → ∀ btn, button btn = false
  sent : s.sent = []

theorem NoPress.inv (h : NoPress s) : Inv o ⟨s, []⟩ := by
  have hmarks : marks s = [] := by rw [marks, h.sent]; rfl
  refine ⟨fun b hb => ?_, fun gamepad btn hdown => ?_, fun gamepad btn hb => ?_, ?_⟩
  · simp [hmarks] at hb
  · obtain ⟨button, hbutton, hbtn⟩ := hdown
    exact absurd ((h.gamepads gamepad button hbutton btn).symm.trans hbtn) (by simp)
  · simp [hmarks] at hb
  · simp [h.buttonState, hmarks, mask]

/-- If the release of each button that is down gets through, no button stays down. -/
theorem noStuck_run (o : Options) (s : WindowCallbacks) (hs : NoPress s) (es : List InputEvent)
    (hok : Runs.Meets (step o) (ReleaseOk o) ⟨s, []⟩ es)
    (hrun : Runs.run (step o) ⟨s, []⟩ es = some r) : NoStuck r :=
  (hok.inv_of_run (fun _ _ _ h hok hs => h.step hok hs) hs.inv hrun).noStuck

theorem noPress_initial : NoPress (initial [0]) := by
  refine ⟨rfl, fun gamepad button hbutton btn => ?_, rfl⟩
  obtain ⟨_, hbutton⟩ := Option.ite_none_right_eq_some.mp hbutton
  cases hbutton
  rfl

/-- A click of the mouse after which a gamepad is used. -/
def clickThenGamepad : List InputEvent :=
  [.mouseButton 1 true false false 0, .mouseButton 1 false false false 10000000,
    .gamepadButton 0 .A true 300000000, .gamepadButton 0 .A false 310000000]

theorem noStuck_run_clickThenGamepad :
    (Runs.run (step .imgui) ⟨initial [0], []⟩ clickThenGamepad).isSome = true ∧
      ∀ r, Runs.run (step .imgui) ⟨initial [0], []⟩ clickThenGamepad = some r → NoStuck r := by
  refine ⟨rfl, fun r => noStuck_run .imgui (initial [0]) noPress_initial clickThenGamepad ?_⟩
  refine .cons trivial rfl (.cons (fun _ => ⟨by decide, ?_⟩) rfl (.cons trivial rfl ?_))
  · exact ⟨rfl, by decide, fun h => absurd h.2.2.1 (by decide), fun _ h => absurd h (by decide)⟩
  · exact .cons (fun _ => by decide) rfl trivial

/-- A finger touches the screen while a mouse button is held. -/
theorem not_noStuck_touchWhileHeld : ∃ r, Runs.run (step .imgui) ⟨initial [0], []⟩
    [.mouseButton 1 true false false 0, .touchStart 7 10000000,
      .mouseButton 1 false false false 20000000] = some r ∧ ¬NoStuck r := by
  refine ⟨_, rfl, fun h => ?_⟩
  have hstate := (h (by decide)).1
  exact absurd hstate (by decide)

end ButtonRun

end McpeLauncher.Input
