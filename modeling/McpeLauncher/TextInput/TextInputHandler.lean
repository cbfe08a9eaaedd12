import McpeLauncher.TextInput.Utf8Util

/-!
# The text input handler

`TextInputHandler` tracks the text of the field that is being edited, with two cursors into it: the
caret and the other end of the selection. Each cursor is kept as a byte offset and as a number of
code points.

An operation is `none` if it reads, erases, inserts or copies outside of the text.
-/

namespace McpeLauncher.TextInput
open Utf8

/-- The calls of `textUpdateCallback` and `caretPositionCallback`. -/
inductive Callback
  | textUpdate (text : Bytes)
  | caretPosition (pos : Int)
  deriving DecidableEq

inductive KeyCode
  | RIGHT
  | LEFT
  | HOME
  | END
  | other (code : Nat)
  deriving DecidableEq

inductive KeyAction
  | PRESS
  | REPEAT
  | RELEASE
  deriving DecidableEq

def KEY_MOD_SHIFT : BitVec 32 := 1 <<< 0

def KEY_MOD_ALT : BitVec 32 := 1 <<< 3

/-- The state of a handler, with the callbacks it has made so far. -/
structure TextInputHandler where
  enabled : Bool := false
  multiline : Bool := false
  altPressed : Bool := false
  currentText : Bytes := []
  currentTextPosition : Nat := 0
  currentTextPositionUTF : Nat := 0
  currentTextCopyPosition : Nat := 0
  currentTextCopyPositionUTF : Nat := 0
  enabledNo : Nat := 0
  keepOnce : Bool := false
  shiftPressed : Bool := false
  callbacks : List Callback := []
  deriving DecidableEq

/-- The conversion of a `size_t` to `int`. -/
def toInt (n : Nat) : Int := (n : Int).bmod UInt32.size

/-- `n - 1` for a `size_t`. -/
def sizePred (n : Nat) : Nat := if n = 0 then UInt64.size - 1 else n - 1

/-- The characters of `spaces`: a blank, then `-_#/`, a backslash, `!@$%^&*();:`, the two quotes and
`?.,`. -/
def spaces : Bytes :=
  [32, 45, 95, 35, 47, 92, 33, 64, 36, 37, 94, 38, 42, 40, 41, 59, 58, 39, 34, 63, 46, 44]

/-- `strchr(spaces, c)`, which also finds the terminating zero. -/
def isSpace (c : UInt8) : Bool := c = 0 || c ∈ spaces

def erase (text : Bytes) (start stop : Nat) : Option Bytes :=
  if start ≤ stop ∧ stop ≤ text.length then some (text.take start ++ text.drop stop) else none

def insert (text : Bytes) (pos : Nat) (new : Bytes) : Option Bytes :=
  if pos ≤ text.length then some (text.take pos ++ new ++ text.drop pos) else none

def substr (text : Bytes) (pos n : Nat) : Option Bytes :=
  if pos ≤ text.length then some ((text.drop pos).take n) else none

/-! ## The loops -/

/-- The loops of the word deletion: step back until the byte here or the one before is a `stop`. -/
def deleteStartLoop (text : Bytes) (stop : UInt8 → Bool) : Nat → Option Nat
  | 0 => some 0
  | deleteStart + 1 =>
    if toInt (deleteStart + 1) > 0 then
      if deleteStart < 1 then some deleteStart
      else do
        let before ← charAt text (deleteStart - 1)
        if stop before then return deleteStart
        let here ← charAt text deleteStart
        if stop here then return deleteStart
        deleteStartLoop text stop deleteStart
    else some (deleteStart + 1)

/-- The last loop of a deletion: step back over continuation bytes. -/
def deleteStartAlign (text : Bytes) : Nat → Option Nat
  | 0 => some 0
  | deleteStart + 1 =>
    if toInt (deleteStart + 1) > 0 then do
      let c ← charAt text (deleteStart + 1)
      if isContinuation c then deleteStartAlign text deleteStart else return deleteStart + 1
    else some (deleteStart + 1)

/-- Step forward over continuation bytes, for at most so many bytes. -/
def alignRight (text : Bytes) : (fuel pos : Nat) → Option Nat
  | 0, pos => some pos
  | fuel + 1, pos =>
    if pos < text.length then do
      let c ← charAt text pos
      if isContinuation c then alignRight text fuel (pos + 1) else return pos
    else some pos

/-- Step back over continuation bytes. -/
def alignLeft (text : Bytes) : Nat → Option Nat
  | 0 => some 0
  | pos + 1 => do
    let c ← charAt text (pos + 1)
    if isContinuation c then alignLeft text pos else return pos + 1

/-- The word loops of the right key: step forward until a `stop`. -/
def wordRight (text : Bytes) (stop : UInt8 → Bool) : (fuel pos : Nat) → Option Nat
  | 0, pos => some pos
  | fuel + 1, pos =>
    if pos < text.length then
      if pos + 1 ≥ text.length then some (pos + 1)
      else do
        let c ← charAt text (pos + 1)
        if stop c then return pos + 1
        wordRight text stop fuel (pos + 1)
    else some pos

/-- The word loops of the left key: step back until the byte before is a `stop`. -/
def wordLeft (text : Bytes) (stop : UInt8 → Bool) : Nat → Option Nat
  | 0 => some 0
  | pos + 1 =>
    if pos < 1 then some pos
    else do
      let before ← charAt text (pos - 1)
      if stop before then return pos
      wordLeft text stop pos

/-- The start of the deletion of a word, before it is aligned to a character. -/
def wordDeleteStart (text : Bytes) (deleteStart : Nat) : Option Nat := do
  let c ← charAt text deleteStart
  if isSpace c then
    deleteStartLoop text isSpace (← deleteStartLoop text (fun c => !isSpace c) deleteStart)
  else deleteStartLoop text isSpace deleteStart

/-- The right key with Alt: over blanks, then over a word. -/
def skipWordRight (text : Bytes) (pos : Nat) : Option Nat := do
  let c ← charAt text pos
  if isSpace c then
    wordRight text isSpace text.length (← wordRight text (fun c => !isSpace c) text.length pos)
  else wordRight text isSpace text.length pos

/-- The left key with Alt. -/
def skipWordLeft (text : Bytes) (pos : Nat) : Option Nat := do
  let c ← charAt text (pos - 1)
  if isSpace c then wordLeft text isSpace (← wordLeft text (fun c => !isSpace c) pos)
  else wordLeft text isSpace pos

namespace TextInputHandler

/-! ## The operations -/

def getCursorPosition (s : TextInputHandler) : Int := toInt s.currentTextPositionUTF

/-- Both cursors at one place. -/
def resetCopyPosition (s : TextInputHandler) : TextInputHandler :=
  { s with currentTextCopyPosition := s.currentTextPosition
           currentTextCopyPositionUTF := s.currentTextPositionUTF }

def reportCaret (s : TextInputHandler) : TextInputHandler :=
  { s with callbacks := s.callbacks ++ [.caretPosition s.getCursorPosition] }

def update (s : TextInputHandler) (text : Bytes) : Option TextInputHandler := do
  let utf ← UTF8Util.getLength text text.length
  return resetCopyPosition { s with currentText := text, currentTextPosition := text.length
                                    currentTextPositionUTF := utf }

/-- The byte that is `n` places before the end leads a character of `n` bytes. -/
def endsWithSize (text : Bytes) (n : Nat) : Bool :=
  n ≤ text.length && text[text.length - n]?.map UTF8Util.getCharByteSize = some n

/-- The last character of the current text, as `enable` takes it. -/
def lastChar (text : Bytes) : Bytes :=
  if endsWithSize text 3 then text.drop (text.length - 3)
  else if endsWithSize text 2 then text.drop (text.length - 2)
  else if endsWithSize text 1 then text.drop (text.length - 1)
  else []

def enable (s : TextInputHandler) (text : Bytes) (multiline : Bool) : Option TextInputHandler :=
  let s := { s with enabled := true, multiline, enabledNo := s.enabledNo + 1 }
  if s.keepOnce then
    if s.currentText.length ≠ 0 then
      let text := text ++ lastChar s.currentText
      update { s with keepOnce := false, callbacks := s.callbacks ++ [.textUpdate text] } text
    else update { s with keepOnce := false } text
  else s.update text

def disable (s : TextInputHandler) : TextInputHandler :=
  if s.keepOnce then s
  else { s with currentText := [], currentTextPosition := 0, currentTextPositionUTF := 0
                currentTextCopyPosition := 0, currentTextCopyPositionUTF := 0, enabled := false }

/-- The end of `onTextInput`. -/
def reportText (s : TextInputHandler) : TextInputHandler :=
  reportCaret (resetCopyPosition
    { s with callbacks := s.callbacks ++ [.textUpdate s.currentText] })

/-- `onTextInput` with a backspace. -/
def backspace (s : TextInputHandler) : Option TextInputHandler :=
  if s.currentTextPositionUTF ≤ 0 then some s
  else do
    let deleteStart := sizePred s.currentTextPosition
    let (deleteStart, utf) ←
      if s.altPressed then do
        let deleteStart ← wordDeleteStart s.currentText deleteStart
        pure (deleteStart, deleteStart)
      else some (deleteStart, s.currentTextPositionUTF - 1)
    let deleteStart ← deleteStartAlign s.currentText deleteStart
    let text ← erase s.currentText deleteStart s.currentTextPosition
    return reportText { s with currentText := text, currentTextPosition := deleteStart
                               currentTextPositionUTF := utf }

/-- `onTextInput` with the delete key. -/
def deleteKey (s : TextInputHandler) : Option TextInputHandler :=
  if s.currentTextPosition ≥ s.currentText.length then some s
  else do
    let deleteEnd ← alignRight s.currentText s.currentText.length (s.currentTextPosition + 1)
    let text ← erase s.currentText s.currentTextPosition deleteEnd
    return reportText { s with currentText := text }

def onTextInput (s : TextInputHandler) (text : Bytes) : Option TextInputHandler :=
  if text = [8] then s.backspace
  else if text = [127] then s.deleteKey
  else do
    let currentText ← insert s.currentText s.currentTextPosition text
    let utf ← UTF8Util.getLength text text.length
    return reportText { s with currentText, currentTextPosition := s.currentTextPosition + text.length
                               currentTextPositionUTF := s.currentTextPositionUTF + utf }

/-- The selection is given up, with the caret at one of its ends. -/
def collapse (s : TextInputHandler) (pos : Nat) : Option TextInputHandler := do
  let utf ← UTF8Util.getLength s.currentText pos
  return reportCaret (resetCopyPosition
    { s with currentTextPosition := pos, currentTextPositionUTF := utf })

/-- The end of `onKeyPressed` and `setCursorPosition`: the selection is extended with shift. -/
def moveCaret (s : TextInputHandler) (pos utf : Nat) : TextInputHandler :=
  let s := { s with currentTextPosition := pos, currentTextPositionUTF := utf }
  reportCaret (if s.shiftPressed then s else s.resetCopyPosition)

def pressRight (s : TextInputHandler) : Option TextInputHandler :=
  if !s.shiftPressed && s.currentTextPosition ≠ s.currentTextCopyPosition then
    s.collapse (max s.currentTextPosition s.currentTextCopyPosition)
  else if s.currentTextPosition ≥ s.currentText.length then some s
  else if s.altPressed then do
    let pos ← skipWordRight s.currentText s.currentTextPosition
    return s.moveCaret pos (← UTF8Util.getLength s.currentText pos)
  else do
    let pos ← alignRight s.currentText s.currentText.length (s.currentTextPosition + 1)
    return s.moveCaret pos (s.currentTextPositionUTF + 1)

def pressLeft (s : TextInputHandler) : Option TextInputHandler :=
  if !s.shiftPressed && s.currentTextPosition ≠ s.currentTextCopyPosition then
    s.collapse (min s.currentTextPosition s.currentTextCopyPosition)
  else if s.currentTextPosition ≤ 0 then some s
  else if s.altPressed then do
    let pos ← skipWordLeft s.currentText s.currentTextPosition
    return s.moveCaret pos (← UTF8Util.getLength s.currentText pos)
  else do
    let pos ← alignLeft s.currentText (s.currentTextPosition - 1)
    return s.moveCaret pos (sizePred s.currentTextPositionUTF)

def onKeyPressed (s : TextInputHandler) (key : KeyCode) (action : KeyAction) (mods : BitVec 32) :
    Option TextInputHandler :=
  let s := { s with shiftPressed := mods &&& KEY_MOD_SHIFT ≠ 0
                    altPressed := mods &&& KEY_MOD_ALT ≠ 0 }
  if action ≠ .PRESS ∧ action ≠ .REPEAT then some s
  else
    match key with
    | .RIGHT => s.pressRight
    | .LEFT => s.pressLeft
    | .HOME => some (s.moveCaret 0 0)
    | .END => do
      return s.moveCaret s.currentText.length
        (← UTF8Util.getLength s.currentText s.currentText.length)
    | .other _ => some s

def getCopyText (s : TextInputHandler) : Option Bytes :=
  if s.currentTextCopyPosition ≠ s.currentTextPosition then
    let start := min s.currentTextPosition s.currentTextCopyPosition
    let stop := max s.currentTextPosition s.currentTextCopyPosition
    substr s.currentText start (stop - start)
  else some s.currentText

def setCursorPosition (s : TextInputHandler) (pos : Int) : Option TextInputHandler := do
  if pos < 0 then
    return s.moveCaret s.currentText.length
      (← UTF8Util.getLength s.currentText s.currentText.length)
  else
    let bytePos ← UTF8Util.getBytePosFromUTF s.currentText s.currentText.length pos.toNat
    return s.moveCaret bytePos pos.toNat

def setKeepLastCharOnce (s : TextInputHandler) : TextInputHandler := { s with keepOnce := true }

end TextInputHandler

/-! ## Runs -/

/-- The calls of a run; a `String` is a valid UTF-8 text. -/
inductive Call
  | enable (text : String) (multiline : Bool)
  | update (text : String)
  | disable
  | onTextInput (text : String)
  | onKeyPressed (key : KeyCode) (action : KeyAction) (mods : BitVec 32)
  | setCursorPosition (pos : Int)
  | setKeepLastCharOnce
  | getCopyText

def step (s : TextInputHandler) : Call → Option TextInputHandler
  | .enable text multiline => s.enable (encode text.toList) multiline
  | .update text => s.update (encode text.toList)
  | .disable => some s.disable
  | .onTextInput text => s.onTextInput (encode text.toList)
  | .onKeyPressed key action mods => s.onKeyPressed key action mods
  | .setCursorPosition pos => s.setCursorPosition pos
  | .setKeepLastCharOnce => some s.setKeepLastCharOnce
  | .getCopyText => do
    let _ ← s.getCopyText
    return s

end McpeLauncher.TextInput
