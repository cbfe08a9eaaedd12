import Mathlib.Algebra.Group.Int.Defs
import Mathlib.Data.List.Basic
import McpeLauncher.Lib.Decimal
import McpeLauncher.Lib.TreeMaps

/-!
# Configuration files

`config` of the Play API: one entry a line, `key = value`, where a value is quoted and escaped if it
would not be read back otherwise. A line that ends with a backslash goes on in the next one.
-/

namespace McpeLauncher.PlayApi

abbrev Bytes := List UInt8

/-- The bytes of an ASCII text. -/
def ascii (s : String) : Bytes := s.toList.map fun c => UInt8.ofNat c.toNat

inductive ConfigError
  | runtimeError (what : String)
  | invalidArgument
  | outOfRange
  deriving DecidableEq

inductive ConfigEntry
  | text (t : Bytes)
  | array (vals : List Bytes)
  deriving DecidableEq

/-- The entries and the formatting options. -/
structure Config where
  entries : Std.TreeMap Bytes ConfigEntry := {}
  indent : Nat := 4
  arrayAppendComma : Bool := false

namespace Config

def newline : UInt8 := 10
def space : UInt8 := 32
def quote : UInt8 := 34
def comma : UInt8 := 44
def semicolon : UInt8 := 59
def equals : UInt8 := 61
def bracket : UInt8 := 91
def backslash : UInt8 := 92
def closeBracket : UInt8 := 93

def separator : Bytes := [space, equals, space]

def set (c : Config) (name : Bytes) (val : ConfigEntry) : Config :=
  { c with entries := c.entries.insert name val }

def get (c : Config) (name : Bytes) (defaultVal : Bytes) : Bytes :=
  match c.entries[name]? with
  | some (.text t) => t
  | _ => defaultVal

/-- `get_int`, which is asked for a number of entries; it has no limit here. -/
def getInt (c : Config) (name : Bytes) (defaultVal : Int) : Except ConfigError Int :=
  match c.entries[name]? with
  | some (.text t) =>
    match Decimal.readInt t with
    | none => .error .invalidArgument
    | some n => .ok n
  | _ => .ok defaultVal

/-- `get_long`, with the limits of `long long`. -/
def getLong (c : Config) (name : Bytes) (defaultVal : Int) : Except ConfigError Int :=
  match c.entries[name]? with
  | some (.text t) =>
    match Decimal.readInt t with
    | none => .error .invalidArgument
    | some n => if -2 ^ 63 ≤ n ∧ n < 2 ^ 63 then .ok n else .error .outOfRange
  | _ => .ok defaultVal

/-! ## Escaping -/

/-- `regex_replace` of the bytes with `special` by themselves after a backslash. -/
def escape (special : UInt8 → Bool) (s : Bytes) : Bytes :=
  s.flatMap fun b => if special b then [backslash, b] else [b]

/-- `regex_replace` of the backslashes before a byte with `special` by nothing. -/
def dropEscapes (special : UInt8 → Bool) : Bytes → Bytes
  | [] => []
  | b :: s =>
    if b = backslash ∧ s.head?.any special then dropEscapes special s
    else b :: dropEscapes special s

/-- `regex_replace` of two backslashes by one. -/
def halveBackslashes : Bytes → Bytes
  | [] => []
  | [b] => [b]
  | a :: b :: s =>
    if a = backslash ∧ b = backslash then backslash :: halveBackslashes s
    else a :: halveBackslashes (b :: s)

def escapeKey : Bytes → Bytes := escape fun b => b = equals || b = backslash || b = semicolon

def unescapeKey (key : Bytes) : Bytes :=
  halveBackslashes (dropEscapes (fun b => b = equals || b = semicolon) key)

def escapeVal : Bytes → Bytes := escape fun b => b = quote || b = newline || b = backslash

def unescapeVal (s : Bytes) : Bytes :=
  halveBackslashes (dropEscapes (fun b => b = quote || b = newline) s)

def unescapeValue (value : Bytes) : Except ConfigError Bytes :=
  if value.head? = some quote then
    if value.getLast? ≠ some quote then
      .error (.runtimeError "Badly formatted value: starts with a quote, but doesn't end with one")
    else .ok (unescapeVal ((value.drop 1).take (value.length - 2)))
  else .ok value

/-! ## Writing -/

def mustQuote (value : Bytes) (array : Bool) : Bool :=
  value.head?.any (fun b => b = bracket || b = quote || b = space) ||
    value.getLast? = some backslash || value.contains newline ||
    (array && value.getLast? = some comma)

def writeValue (value : Bytes) (array : Bool) : Bytes :=
  if mustQuote value array then quote :: (escapeVal value ++ [quote]) else value

/-- The values of an array; `f` is true for the first one. -/
def writeArray (c : Config) : Bool → List Bytes → Bytes
  | _, [] => []
  | f, a :: vals =>
    (if !f && c.arrayAppendComma then [comma, newline] else []) ++ newline ::
      (List.replicate c.indent space ++ writeValue a true ++ writeArray c false vals)

def writeEntry (c : Config) (e : Bytes × ConfigEntry) : Bytes :=
  escapeKey e.1 ++ separator ++
    match e.2 with
    | .array vals => bracket :: (writeArray c true vals ++ [newline, closeBracket, newline])
    | .text t => writeValue t false ++ [newline]

def save (c : Config) : Bytes := c.entries.toList.flatMap c.writeEntry

/-! ## Reading -/

/-- What the calls of `getline` return. -/
def getlines : Bytes → List Bytes
  | [] => []
  | b :: s =>
    if b = newline then [] :: getlines s
    else
      match getlines s with
      | [] => [[b]]
      | line :: ls => (b :: line) :: ls

/-- The inner loop of `read_line`. -/
def continueLine (line : Bytes) : List Bytes → Except ConfigError (Bytes × List Bytes)
  | [] =>
    if line.getLast? = some backslash then
      .error (.runtimeError "Bad formatted config line: backslash at the end of the last line.")
    else .ok (line, [])
  | tmpLine :: ls =>
    if line.getLast? = some backslash then continueLine (line ++ newline :: tmpLine) ls
    else .ok (line, tmpLine :: ls)

/-- `read_line`; `none` if the stream has ended. -/
def readLine : List Bytes → Except ConfigError (Option (Bytes × List Bytes))
  | [] => .ok none
  | line :: ls =>
    if line = [] ∨ line.head? = some semicolon then readLine ls
    else (continueLine line ls).map some

/-- `line.find(" = ")`: what is before and behind it. -/
def findSeparator : Bytes → Option (Bytes × Bytes)
  | [] => none
  | b :: s =>
    if separator.isPrefixOf (b :: s) then some ([], (b :: s).drop separator.length)
    else (findSeparator s).map fun p => (b :: p.1, p.2)

theorem continueLine_length {line line' : Bytes} {ls rest : List Bytes}
    (h : continueLine line ls = .ok (line', rest)) : rest.length ≤ ls.length := by
  induction ls generalizing line with
  | nil =>
    rw [continueLine] at h
    split at h
    · cases h
    · cases h
      exact Nat.le_refl _
  | cons tmp ls ih =>
    rw [continueLine] at h
    split at h
    · exact Nat.le_succ_of_le (ih h)
    · cases h
      exact Nat.le_refl _

theorem readLine_length {line : Bytes} {ls rest : List Bytes}
    (h : readLine ls = .ok (some (line, rest))) : rest.length < ls.length := by
  induction ls with
  | nil => cases h
  | cons l ls ih =>
    rw [readLine] at h
    split at h
    · exact Nat.lt_succ_of_lt (ih h)
    · cases hc : continueLine l ls with
      | error x => rw [hc] at h; cases h
      | ok p =>
        rw [hc] at h
        cases h
        exact Nat.lt_succ_of_le (continueLine_length hc)

def isBlank (b : UInt8) : Bool := b = space || b = 9

/-- A line of an array, without its indentation and the comma. -/
def arrayItem (line : Bytes) : Except ConfigError Bytes :=
  let lineIndent := (line.takeWhile isBlank).length
  let line := if line.getLast? = some comma then line.dropLast else line
  unescapeValue (line.drop lineIndent)

/-- The loop of `load` over the lines of an array. -/
def readArray (ls : List Bytes) (vals : List Bytes) : Except ConfigError (List Bytes × List Bytes) :=
  match _h : readLine ls with
  | .error x => .error x
  | .ok none => .error (.runtimeError "An array was opened, but was not closed.")
  | .ok (some (line, rest)) =>
    if line = [closeBracket] then .ok (vals, rest)
    else
      match arrayItem line with
      | .error x => .error x
      | .ok val => readArray rest (vals ++ [val])
termination_by ls.length
decreasing_by exact readLine_length _h

theorem readArray_length {ls vals : List Bytes} {vals' rest : List Bytes}
    (h : readArray ls vals = .ok (vals', rest)) : rest.length < ls.length := by
  fun_induction readArray ls vals with
  | case1 => cases h
  | case2 => cases h
  | case3 ls vals rest' hread =>
    cases h
    exact readLine_length hread
  | case4 => cases h
  | case5 ls vals line rest' hread hclose val hitem ih =>
    exact Nat.lt_trans (ih h) (readLine_length hread)

/-- `load` from the lines of a stream. -/
def loadLines (ls : List Bytes) (c : Config) : Except ConfigError Config :=
  match _h : readLine ls with
  | .error x => .error x
  | .ok none => .ok c
  | .ok (some (line, rest)) =>
    match findSeparator line with
    | none => loadLines rest c
    | some (key, val) =>
      if val = [bracket] then
        match _h' : readArray rest [] with
        | .error x => .error x
        | .ok (vals, rest') => loadLines rest' (c.set (unescapeKey key) (.array vals))
      else
        match unescapeValue val with
        | .error x => .error x
        | .ok t => loadLines rest (c.set (unescapeKey key) (.text t))
termination_by ls.length
decreasing_by
  · exact readLine_length _h
  · exact Nat.lt_trans (readArray_length _h') (readLine_length _h)
  · exact readLine_length _h

def load (c : Config) (stream : Bytes) : Except ConfigError Config := loadLines (getlines stream) c

end Config
end McpeLauncher.PlayApi
