import McpeLauncher.Lib.Pairing
import McpeLauncher.Lib.Runs

/-!
# Input events

`WindowCallbacks` forwards the events of the mouse, of the touch screen and of the gamepads to the
game. Each event goes through the gate `hasInputMode`, which follows the device that was used last;
the ImGui windows and the callbacks of mods may take events too. Positions are not modelled, of a
movement only whether it is large enough to switch the mode.
-/

namespace McpeLauncher.Input

inductive InputMode
  | Touch
  | Mouse
  | Gamepad
  | Unknown
  deriving DecidableEq

/-- The number of a mode. A mode with a smaller number takes over at once. -/
def InputMode.toNat : InputMode → Nat
  | .Touch => 0
  | .Mouse => 1
  | .Gamepad => 2
  | .Unknown => 3

inductive GamepadButtonId
  | A | B | X | Y | LB | RB | BACK | START | GUIDE | LEFT_STICK | RIGHT_STICK
  | DPAD_UP | DPAD_RIGHT | DPAD_DOWN | DPAD_LEFT
  deriving DecidableEq

def GamepadButtonId.isDpad (b : GamepadButtonId) : Bool :=
  b = .DPAD_UP || b = .DPAD_DOWN || b = .DPAD_LEFT || b = .DPAD_RIGHT

def mapGamepadToAndroidKey : GamepadButtonId → Nat
  | .A => 96
  | .B => 97
  | .X => 99
  | .Y => 100
  | .LB => 102
  | .RB => 103
  | .BACK => 109
  | .START => 108
  | .GUIDE => 110
  | .LEFT_STICK => 106
  | .RIGHT_STICK => 107
  | .DPAD_UP => 19
  | .DPAD_RIGHT => 22
  | .DPAD_DOWN => 20
  | .DPAD_LEFT => 21

/-- `mapMouseButtonToAndroid`, with the bits of the Android buttons. -/
def mapMouseButtonToAndroid (btn : Nat) : BitVec 32 :=
  match btn with
  | 1 => 1
  | 2 => 2
  | 3 => 4
  | 8 => 8
  | 9 => 16
  | btn => BitVec.ofNat 32 btn

/-- A physical button. -/
inductive Button
  | mouse (btn : Nat)
  | gamepad (gamepad : Int) (btn : GamepadButtonId)
  deriving DecidableEq

/-- How the game gets the event of a button. -/
inductive Route
  | touch
  | key (code : Nat)
  | feed
  | motion (buttonState : BitVec 32)
  | hat (x y : Int)
  deriving DecidableEq

/-- What the game gets: events of fingers and of buttons, and events that only move something. The
axes of a gamepad in the input queue are read when the game takes the event. -/
inductive Sent
  | finger (id : Int) (mark : Pairing.Mark)
  | button (b : Button) (pressed : Bool) (route : Route)
  | moved
  deriving DecidableEq

/-- What does not change: the build, the version of the game, and the environment. The delay is in
milliseconds, other times are in nanoseconds. -/
structure Options where
  useImgui : Bool
  emulateTouch : Bool
  isGameActivityVersion : Bool
  useDirectMouseInput : Bool
  useRawInput : Bool
  forcedMode : InputMode
  inputModeSwitchDelay : Int

/-- A build with ImGui windows, and nothing set in the environment. -/
def Options.imgui : Options := ⟨true, false, true, false, false, .Unknown, 100⟩

/-- The state, with what the ImGui windows want to capture and all that was sent to the game, the
newest event first. -/
structure WindowCallbacks where
  sendEvents : Bool
  inputMode : InputMode
  lastUpdated : Int
  cursorLocked : Bool
  cursorDisabled : Bool
  wantCaptureMouse : Bool
  wantCaptureKeyboard : Bool
  imGuiTouchId : Int
  buttonState : BitVec 32
  gamepads : Int → Option (GamepadButtonId → Bool)
  needsQueueGamepadInput : Bool
  sent : List Sent

namespace WindowCallbacks

def send (s : WindowCallbacks) (e : Sent) : WindowCallbacks := { s with sent := e :: s.sent }

/-- The result of `hasInputMode`. -/
def opens (o : Options) (s : WindowCallbacks) (want : InputMode) (changeMode : Bool) (now : Int) :
    Bool :=
  if !s.sendEvents then false
  else if o.useRawInput then true
  else if o.forcedMode ≠ .Unknown then want = o.forcedMode
  else s.inputMode = want || (changeMode && (want.toNat < s.inputMode.toNat ||
    now - s.lastUpdated > o.inputModeSwitchDelay * 1000000))

/-- What `hasInputMode` changes if it is true. -/
def switchTo (o : Options) (s : WindowCallbacks) (want : InputMode) (now : Int) : WindowCallbacks :=
  if o.useRawInput || o.forcedMode ≠ .Unknown then s
  else
    { s with
      inputMode := want
      lastUpdated := now
      cursorDisabled := if s.inputMode ≠ want then
        (if want = .Mouse then s.cursorLocked else true) else s.cursorDisabled }

/-! What a switch of the mode leaves as it is. -/

section
variable (o : Options) (s : WindowCallbacks) (want : InputMode) (now : Int)

@[simp] theorem switchTo_sendEvents : (switchTo o s want now).sendEvents = s.sendEvents := by
  unfold switchTo
  split <;> rfl

@[simp] theorem switchTo_wantCaptureMouse :
    (switchTo o s want now).wantCaptureMouse = s.wantCaptureMouse := by
  unfold switchTo
  split <;> rfl

@[simp] theorem switchTo_imGuiTouchId :
    (switchTo o s want now).imGuiTouchId = s.imGuiTouchId := by
  unfold switchTo
  split <;> rfl

@[simp] theorem switchTo_buttonState : (switchTo o s want now).buttonState = s.buttonState := by
  unfold switchTo
  split <;> rfl

@[simp] theorem switchTo_gamepads : (switchTo o s want now).gamepads = s.gamepads := by
  unfold switchTo
  split <;> rfl

@[simp] theorem switchTo_sent : (switchTo o s want now).sent = s.sent := by
  unfold switchTo
  split <;> rfl

end

def startSendEvents (s : WindowCallbacks) : WindowCallbacks := { s with sendEvents := true }

def setCursorLocked (o : Options) (s : WindowCallbacks) (locked : Bool) (now : Int) :
    WindowCallbacks :=
  let s := { s with cursorLocked := locked }
  if opens o s .Mouse false now then { switchTo o s .Mouse now with cursorDisabled := locked }
  else s

/-- `onKeyboard`, as far as it concerns a button of the mouse. -/
def onKeyboard (o : Options) (s : WindowCallbacks) (btn : Nat) (pressed taken : Bool) :
    WindowCallbacks :=
  if taken then s
  else if o.useImgui && s.wantCaptureKeyboard then s
  else s.send (.button (.mouse btn) pressed (.key btn))

/-- `onMouseButton` behind the gate: callbacks of mods may take the event of the button and that of
the key which the higher buttons stand for. -/
def sendMouseButton (o : Options) (s : WindowCallbacks) (btn : Nat) (pressed taken keyTaken : Bool) :
    WindowCallbacks :=
  if taken then s
  else if btn < 1 then s
  else if o.useImgui && btn ≤ 3 && s.wantCaptureMouse && !s.cursorDisabled then s
  else if o.emulateTouch then s.send (.button (.mouse btn) pressed .touch)
  else if btn > 3 then onKeyboard o s btn pressed keyTaken
  else if o.useDirectMouseInput then s.send (.button (.mouse btn) pressed .feed)
  else
    let buttonState := if pressed then s.buttonState ||| mapMouseButtonToAndroid btn
      else s.buttonState &&& ~~~mapMouseButtonToAndroid btn
    { s with buttonState }.send (.button (.mouse btn) pressed (.motion buttonState))

def onMouseButton (o : Options) (s : WindowCallbacks) (btn : Nat) (pressed taken keyTaken : Bool)
    (now : Int) : WindowCallbacks :=
  if opens o s .Mouse true now then
    sendMouseButton o (switchTo o s .Mouse now) btn pressed taken keyTaken
  else s

def onMousePosition (o : Options) (s : WindowCallbacks) (taken : Bool) (now : Int) :
    WindowCallbacks :=
  if opens o s .Mouse true now then
    let s := switchTo o s .Mouse now
    if taken || (o.useImgui && s.wantCaptureMouse && !s.cursorDisabled) then s else s.send .moved
  else s

def onMouseRelativePosition (o : Options) (s : WindowCallbacks) (large taken : Bool) (now : Int) :
    WindowCallbacks :=
  if opens o s .Mouse large now then
    let s := switchTo o s .Mouse now
    if taken then s else s.send .moved
  else s

def onTouchStart (o : Options) (s : WindowCallbacks) (id : Int) (now : Int) : WindowCallbacks :=
  if opens o s .Touch true now then
    let s := switchTo o s .Touch now
    if o.useImgui && s.imGuiTouchId = -1 then
      let s := { s with imGuiTouchId := id }
      if s.wantCaptureMouse then s else s.send (.finger id .opened)
    else s.send (.finger id .opened)
  else s

def onTouchUpdate (o : Options) (s : WindowCallbacks) (id : Int) (now : Int) : WindowCallbacks :=
  if opens o s .Touch true now then
    let s := switchTo o s .Touch now
    if o.useImgui && s.imGuiTouchId = id then s else s.send (.finger id .used)
  else s

def onTouchEnd (o : Options) (s : WindowCallbacks) (id : Int) (now : Int) : WindowCallbacks :=
  if opens o s .Touch true now then
    let s := switchTo o s .Touch now
    if o.useImgui && s.imGuiTouchId = id then { s with imGuiTouchId := -1 }
    else s.send (.finger id .closed)
  else s

/-- The axes of the directional pad. -/
def hats (button : GamepadButtonId → Bool) : Int × Int :=
  (if button .DPAD_RIGHT then 1 else if button .DPAD_LEFT then -1 else 0,
    if button .DPAD_DOWN then 1 else if button .DPAD_UP then -1 else 0)

/-- `queueGamepadAxisInputIfNeeded`: what is sent at once, or the event in the queue, if it is not
there yet. -/
def queueGamepadAxisInputIfNeeded (o : Options) (s : WindowCallbacks) (now : Sent) :
    WindowCallbacks :=
  if o.isGameActivityVersion then { s.send now with needsQueueGamepadInput := false }
  else if s.needsQueueGamepadInput then { s.send .moved with needsQueueGamepadInput := false }
  else s

/-- `onGamepadButton` behind the gate. -/
def sendGamepadButton (o : Options) (s : WindowCallbacks) (gamepad : Int) (btn : GamepadButtonId)
    (pressed : Bool) : WindowCallbacks :=
  match s.gamepads gamepad with
  | none => s
  | some button =>
    if button btn = pressed then s
    else
      let button := Function.update button btn pressed
      let s := { s with gamepads := Function.update s.gamepads gamepad (some button) }
      if btn.isDpad then
        queueGamepadAxisInputIfNeeded o s (.button (.gamepad gamepad btn) pressed
          (.hat (hats button).1 (hats button).2))
      else s.send (.button (.gamepad gamepad btn) pressed (.key (mapGamepadToAndroidKey btn)))

def onGamepadButton (o : Options) (s : WindowCallbacks) (gamepad : Int) (btn : GamepadButtonId)
    (pressed : Bool) (now : Int) : WindowCallbacks :=
  if opens o s .Gamepad true now then
    sendGamepadButton o (switchTo o s .Gamepad now) gamepad btn pressed
  else s

/-- `onGamepadAxis`; the values of the axes are not modelled. -/
def onGamepadAxis (o : Options) (s : WindowCallbacks) (gamepad : Int) (large : Bool) (now : Int) :
    WindowCallbacks :=
  if opens o s .Gamepad large now then
    let s := switchTo o s .Gamepad now
    match s.gamepads gamepad with
    | none => s
    | some _ => queueGamepadAxisInputIfNeeded o s .moved
  else s

/-- After the first `startSendEvents`, with some gamepads connected. -/
def initial (gamepads : List Int) : WindowCallbacks where
  sendEvents := true
  inputMode := .Unknown
  lastUpdated := 0
  cursorLocked := false
  cursorDisabled := false
  wantCaptureMouse := false
  wantCaptureKeyboard := false
  imGuiTouchId := -1
  buttonState := 0
  gamepads := fun id => if id ∈ gamepads then some fun _ => false else none
  needsQueueGamepadInput := true
  sent := []

def markRequeueGamepadInput (s : WindowCallbacks) : WindowCallbacks :=
  { s with needsQueueGamepadInput := true }

end WindowCallbacks

end McpeLauncher.Input
