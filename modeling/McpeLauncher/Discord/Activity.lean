import McpeLauncher.Discord.DiscordIpc
import McpeLauncher.Lib.JsonRender
import McpeLauncher.Lib.Utf8

/-!
# Activities

`DiscordIpc::setActivity` writes the JSON text of an activity by hand. The activity is also made a
value here, with the members that it should have; what is written is the text of that value.
-/

namespace McpeLauncher.Discord

open JsonText (Text Value Denotes Phrase)

abbrev Bytes := List UInt8

structure Button (σ : Type) where
  label : σ
  url : σ

structure Activity (σ : Type) where
  state : σ
  details : σ
  startMs : Int64 := 0
  largeImage : σ
  largeText : σ
  smallImage : σ
  smallText : σ
  partyId : σ
  partySize : Int32 := 0
  partyMax : Int32 := 0
  joinSecret : σ
  buttons : List (Button σ)

/-- The bytes of an activity that is given by its texts. -/
def Activity.encode (a : Activity Text) : Activity Bytes where
  state := Utf8.encode a.state
  details := Utf8.encode a.details
  startMs := a.startMs
  largeImage := Utf8.encode a.largeImage
  largeText := Utf8.encode a.largeText
  smallImage := Utf8.encode a.smallImage
  smallText := Utf8.encode a.smallText
  partyId := Utf8.encode a.partyId
  partySize := a.partySize
  partyMax := a.partyMax
  joinSecret := Utf8.encode a.joinSecret
  buttons := a.buttons.map fun b => ⟨Utf8.encode b.label, Utf8.encode b.url⟩

/-! ## The text that is written -/

/-- The bytes of a string literal. -/
def lit (s : String) : Bytes := Utf8.encode s.toList

def hexByte (d : UInt8) : UInt8 := if d < 10 then 48 + d else 87 + d

def escapeByte (c : UInt8) : Bytes :=
  if c = 34 then [92, 34]
  else if c = 92 then [92, 92]
  else if c = 8 then [92, 98]
  else if c = 12 then [92, 102]
  else if c = 10 then [92, 110]
  else if c = 13 then [92, 114]
  else if c = 9 then [92, 116]
  else if c < 0x20 then [92, 117, 48, 48, hexByte (c / 16), hexByte (c % 16)]
  else [c]

def jsonEscape (s : Bytes) : Bytes := s.flatMap escapeByte

/-- A name and a string behind it. -/
def stringMember (k : String) (v : Bytes) : Bytes :=
  lit "\"" ++ lit k ++ lit "\":\"" ++ jsonEscape v ++ lit "\""

/-- `put`: the flag `first`, and what is in the assets. -/
def putAsset (p : Bool × Bytes) (k : String) (v : Bytes) : Bool × Bytes :=
  if v = [] then p
  else (false, (if !p.1 then p.2 ++ lit "," else p.2) ++ stringMember k v)

def assetsText (a : Activity Bytes) : Bytes :=
  (putAsset (putAsset (putAsset (putAsset (true, []) "large_image" a.largeImage)
    "large_text" a.largeText) "small_image" a.smallImage) "small_text" a.smallText).2

/-- The loop over the buttons, `n` of which are written. Braces in the texts are `\x7b` and `\x7d`. -/
def buttonsLoop (n : Nat) (act : Bytes) : List (Button Bytes) → Bytes
  | [] => act
  | btn :: btns =>
    if btn.label = [] ∨ btn.url = [] then buttonsLoop n act btns
    else if 2 ≤ n then act
    else
      buttonsLoop (n + 1) ((if 0 < n then act ++ lit "," else act) ++ lit "\x7b" ++
        stringMember "label" btn.label ++ lit "," ++ stringMember "url" btn.url ++ lit "\x7d") btns

def activityText (a : Activity Bytes) : Bytes :=
  lit "\x7b" ++
  (if a.state ≠ [] then stringMember "state" a.state ++ lit "," else []) ++
  (if a.details ≠ [] then stringMember "details" a.details ++ lit "," else []) ++
  (if 0 < a.startMs then
    lit "\"timestamps\":\x7b\"start\":" ++ Decimal.intText a.startMs.toInt ++ lit "\x7d," else []) ++
  (if a.largeImage ≠ [] ∨ a.largeText ≠ [] ∨ a.smallImage ≠ [] ∨ a.smallText ≠ [] then
    lit "\"assets\":\x7b" ++ assetsText a ++ lit "\x7d," else []) ++
  (if a.partyId ≠ [] ∧ 0 < a.partyMax then
    lit "\"party\":\x7b" ++ stringMember "id" a.partyId ++ lit ",\"size\":[" ++
      Decimal.intText (if a.partySize < 0 then 0 else a.partySize).toInt ++ lit "," ++
      Decimal.intText a.partyMax.toInt ++ lit "]\x7d," else []) ++
  (if a.joinSecret ≠ [] then
    lit "\"secrets\":\x7b" ++ stringMember "join" a.joinSecret ++ lit "\x7d," else []) ++
  (if a.buttons ≠ [] then lit "\"buttons\":[" ++ buttonsLoop 0 [] a.buttons ++ lit "]," else []) ++
  lit "\"instance\":true,\"type\":0\x7d"

def nonceText (nonceCounter : UInt32) : Bytes :=
  lit "mcpe-" ++ Decimal.natText nonceCounter.toNat

def activityPayload (pid : Int) (nonce : Bytes) (a : Activity Bytes) : Bytes :=
  lit "\x7b\"cmd\":\"SET_ACTIVITY\",\"args\":\x7b\"pid\":" ++ Decimal.intText pid ++
    lit ",\"activity\":" ++ activityText a ++ lit "\x7d,\"nonce\":\"" ++ nonce ++ lit "\"\x7d"

/-- The members of `DiscordIpc` that `setActivity` changes. -/
structure ActivityClient where
  socket : DiscordIpc
  lastError : Bytes
  nonceCounter : UInt32
  lastNonce : Bytes

def ActivityClient.setActivity (c : ActivityClient) (pid : Int) (a : Activity Bytes) :
    Bool × ActivityClient :=
  if c.socket.connected then
    let nonceCounter := c.nonceCounter + 1
    let nonce := nonceText nonceCounter
    let (sent, socket) := c.socket.sendFrame ⟨.frame, activityPayload pid nonce a⟩
    (sent, { socket, lastError := [], nonceCounter, lastNonce := nonce })
  else (false, c)

/-! ## The value of an activity -/

/-- A member for a text that is not empty. -/
def textMember (k : String) (s : Text) : List (Text × Value) :=
  if s = [] then [] else [(k.toList, .string s)]

def number (n : Int) : Value := .number n 0

def Button.toValue (b : Button Text) : Value :=
  .object [("label".toList, .string b.label), ("url".toList, .string b.url)]

/-- The first two buttons with a label and an address. -/
def shownButtons (bs : List (Button Text)) : List (Button Text) :=
  (bs.filter fun b => b.label ≠ [] ∧ b.url ≠ []).take 2

namespace Activity

def assets (a : Activity Text) : List (Text × Value) :=
  textMember "large_image" a.largeImage ++ textMember "large_text" a.largeText ++
    textMember "small_image" a.smallImage ++ textMember "small_text" a.smallText

/-- The members that an activity has only sometimes. -/
def optionalMembers (a : Activity Text) : List (Text × Value) :=
  textMember "state" a.state ++ textMember "details" a.details ++
  (if 0 < a.startMs then
    [("timestamps".toList, .object [("start".toList, number a.startMs.toInt)])] else []) ++
  (if a.assets ≠ [] then [("assets".toList, .object a.assets)] else []) ++
  (if a.partyId ≠ [] ∧ 0 < a.partyMax then
    [("party".toList, .object [("id".toList, .string a.partyId),
      ("size".toList, .array [number (max 0 a.partySize.toInt), number a.partyMax.toInt])])]
    else []) ++
  (if a.joinSecret ≠ [] then
    [("secrets".toList, .object [("join".toList, .string a.joinSecret)])] else []) ++
  (if a.buttons ≠ [] then
    [("buttons".toList, .array ((shownButtons a.buttons).map Button.toValue))] else [])

def toValue (a : Activity Text) : Value :=
  .object (a.optionalMembers ++ [("instance".toList, .bool true), ("type".toList, number 0)])

end Activity

def payloadValue (pid : Int) (nonceCounter : UInt32) (a : Activity Text) : Value :=
  .object [("cmd".toList, .string "SET_ACTIVITY".toList),
    ("args".toList, .object [("pid".toList, number pid), ("activity".toList, a.toValue)]),
    ("nonce".toList, .string ("mcpe-".toList ++ JsonText.intText nonceCounter.toNat))]

end McpeLauncher.Discord
