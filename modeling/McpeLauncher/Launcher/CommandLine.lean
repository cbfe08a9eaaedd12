import McpeLauncher.Lib.Utf8

/-!
# The command line of a profile

`GameLauncher::start` splits the command line of a profile into arguments: at blanks, with two kinds
of quotes and with escapes inside and outside of them.
-/

namespace McpeLauncher.Launcher

abbrev Bytes := List UInt8

/-- A `QString` as the list of its characters. -/
abbrev Text := List Char

def isBlank (c : UInt8) : Bool := c == 32 || c == 9 || c == 13 || c == 10

def backslash : UInt8 := 92
def doubleQuote : UInt8 := 34
def singleQuote : UInt8 := 39

/-- What a character behind a backslash stands for. -/
def escaped : UInt8 → UInt8
  | 110 => 10
  | 114 => 13
  | 116 => 9
  | 48 => 48
  | c => c

def appendArg (cargs : List Bytes) (arg : Bytes) : List Bytes :=
  if arg = [] then cargs else cargs ++ [arg]

/-- The loop over the command line; `quote` is zero outside of quotes. -/
def splitLoop (quote : UInt8) (arg : Bytes) (cargs : List Bytes) : Bytes → List Bytes
  | [] => appendArg cargs arg
  | cur :: s =>
    if isBlank cur then
      if quote = 0 then splitLoop quote [] (appendArg cargs arg) s
      else splitLoop quote (arg ++ [cur]) cargs s
    else if cur = doubleQuote ∨ cur = singleQuote then
      if quote = 0 then splitLoop cur arg cargs s
      else if cur = quote then splitLoop 0 arg cargs s
      else splitLoop quote (arg ++ [cur]) cargs s
    else if cur = backslash then
      match s with
      | [] => appendArg cargs arg
      | next :: s => splitLoop quote (arg ++ [escaped next]) cargs s
    else splitLoop quote (arg ++ [cur]) cargs s

def split (commandline : Bytes) : List Bytes := splitLoop 0 [] [] commandline

/-! ## Quoted arguments -/

def escapeChar (c : Char) : Text := if c = '"' ∨ c = '\\' then ['\\', c] else [c]

/-- An argument in double quotes, with its double quotes and backslashes escaped. -/
def quoteArgument (w : Text) : Text := '"' :: w.flatMap escapeChar ++ ['"']

def isBlankChar (c : Char) : Bool := c == ' ' || c == '\t' || c == '\r' || c == '\n'

/-- A text that is quoted arguments with blanks between them. -/
inductive CommandLine : List Text → Text → Prop
  | nil : CommandLine [] []
  | blank {ws s} (c : Char) : isBlankChar c = true → CommandLine ws s → CommandLine ws (c :: s)
  | word {ws s} (w : Text) : (∀ c, s.head? = some c → isBlankChar c = true) → CommandLine ws s →
    CommandLine (w :: ws) (quoteArgument w ++ s)

theorem CommandLine.intercalate (ws : List Text) :
    CommandLine ws ([' '].intercalate (ws.map quoteArgument)) := by
  induction ws with
  | nil => exact .nil
  | cons w ws ih =>
    cases ws with
    | nil =>
      rw [List.map_singleton, List.intercalate_singleton, ← List.append_nil (quoteArgument w)]
      exact .word w (by simp) .nil
    | cons w' ws =>
      rw [List.map_cons, List.map_cons, List.intercalate_cons_cons, List.append_assoc]
      refine .word w (fun c hc => ?_) (.blank ' ' rfl ih)
      cases hc
      rfl

section Split

variable {arg : Bytes} {cargs : List Bytes} {s : Bytes} {b : UInt8}

theorem splitLoop_cons_of_blank (h : isBlank b = true) :
    splitLoop 0 arg cargs (b :: s) = splitLoop 0 [] (appendArg cargs arg) s := by
  simp only [splitLoop.eq_def 0 arg cargs (b :: s), if_pos h, if_pos]

theorem splitLoop_openQuote :
    splitLoop 0 arg cargs (doubleQuote :: s) = splitLoop doubleQuote arg cargs s := by
  rw [splitLoop.eq_def]
  rfl

theorem splitLoop_closeQuote :
    splitLoop doubleQuote arg cargs (doubleQuote :: s) = splitLoop 0 arg cargs s := by
  rw [splitLoop.eq_def]
  rfl

/-- In double quotes only a double quote and a backslash are special. -/
theorem splitLoop_cons_of_quoted (hquote : b ≠ doubleQuote) (hescape : b ≠ backslash) :
    splitLoop doubleQuote arg cargs (b :: s) = splitLoop doubleQuote (arg ++ [b]) cargs s := by
  have hzero : doubleQuote ≠ 0 := by decide
  simp only [splitLoop.eq_def doubleQuote arg cargs (b :: s), if_neg hquote, if_neg hescape,
    if_neg hzero, ite_self]

theorem splitLoop_append_of_quoted {l : Bytes}
    (h : ∀ b ∈ l, b ≠ doubleQuote ∧ b ≠ backslash) :
    splitLoop doubleQuote arg cargs (l ++ s) = splitLoop doubleQuote (arg ++ l) cargs s := by
  induction l generalizing arg with
  | nil => rw [List.append_nil, List.nil_append]
  | cons b l ih =>
    obtain ⟨hquote, hescape⟩ := h b (.head _)
    rw [List.cons_append, splitLoop_cons_of_quoted hquote hescape,
      ih fun b hb => h b (.tail _ hb), List.append_assoc]
    rfl

theorem splitLoop_escapeChar (c : Char) :
    splitLoop doubleQuote arg cargs (Utf8.encode (escapeChar c) ++ s) =
      splitLoop doubleQuote (arg ++ String.utf8EncodeChar c) cargs s := by
  by_cases hquote : c = '"'
  · subst hquote
    rfl
  · by_cases hescape : c = '\\'
    · subst hescape
      rfl
    · have hnot : ¬(c = '"' ∨ c = '\\') := not_or.mpr ⟨hquote, hescape⟩
      rw [escapeChar, if_neg hnot, Utf8.encode_cons, Utf8.encode_nil, List.append_nil]
      refine splitLoop_append_of_quoted fun b hb => ⟨?_, ?_⟩
      · rintro rfl
        exact hquote (Char.toNat_inj.mp (Utf8.toNat_of_mem_encodeChar hb rfl))
      · rintro rfl
        exact hescape (Char.toNat_inj.mp (Utf8.toNat_of_mem_encodeChar hb rfl))

theorem splitLoop_escape (w : Text) :
    splitLoop doubleQuote arg cargs (Utf8.encode (w.flatMap escapeChar) ++ s) =
      splitLoop doubleQuote (arg ++ Utf8.encode w) cargs s := by
  induction w generalizing arg with
  | nil => rw [Utf8.encode_nil, List.append_nil]; rfl
  | cons c w ih =>
    rw [List.flatMap_cons, Utf8.encode_append, List.append_assoc, splitLoop_escapeChar, ih,
      Utf8.encode_cons, List.append_assoc]

theorem splitLoop_quoteArgument (w : Text) :
    splitLoop 0 [] cargs (Utf8.encode (quoteArgument w) ++ s) =
      splitLoop 0 (Utf8.encode w) cargs s := by
  have hbytes : Utf8.encode (quoteArgument w) ++ s =
      doubleQuote :: (Utf8.encode (w.flatMap escapeChar) ++ doubleQuote :: s) := by
    rw [quoteArgument, Utf8.encode_append, Utf8.encode_cons, List.append_assoc, List.append_assoc]
    rfl
  rw [hbytes, splitLoop_openQuote, splitLoop_escape, splitLoop_closeQuote]
  rfl

theorem encodeChar_of_blank {c : Char} (h : isBlankChar c = true) :
    ∃ b, isBlank b = true ∧ String.utf8EncodeChar c = [b] := by
  have hc : ((c = ' ' ∨ c = '\t') ∨ c = '\r') ∨ c = '\n' := by simpa [isBlankChar] using h
  obtain ((rfl | rfl) | rfl) | rfl := hc <;> exact ⟨_, rfl, rfl⟩

/-- An argument ends at the end and at a blank. -/
theorem splitLoop_of_blank {text : Text} (h : ∀ c, text.head? = some c → isBlankChar c = true) :
    splitLoop 0 arg cargs (Utf8.encode text) =
      splitLoop 0 [] (appendArg cargs arg) (Utf8.encode text) := by
  cases text with
  | nil => rfl
  | cons c text =>
    obtain ⟨b, hb, hc⟩ := encodeChar_of_blank (h c rfl)
    rw [Utf8.encode_cons, hc, List.singleton_append, splitLoop_cons_of_blank hb,
      splitLoop_cons_of_blank hb]
    rfl

/-- The loop finds the arguments of a command line. -/
theorem splitLoop_commandLine {ws : List Text} {text : Text} (h : CommandLine ws text)
    (hne : ∀ w ∈ ws, w ≠ []) :
    splitLoop 0 [] cargs (Utf8.encode text) = cargs ++ ws.map Utf8.encode := by
  induction h generalizing cargs with
  | nil => exact (List.append_nil cargs).symm
  | blank c hc _ ih =>
    obtain ⟨b, hb, hc⟩ := encodeChar_of_blank hc
    rw [Utf8.encode_cons, hc, List.singleton_append, splitLoop_cons_of_blank hb]
    exact ih hne
  | word w hblank _ ih =>
    have hw : Utf8.encode w ≠ [] := Utf8.encode_ne_nil (hne w (.head _))
    rw [Utf8.encode_append, splitLoop_quoteArgument, splitLoop_of_blank hblank,
      ih fun w hw => hne w (.tail _ hw), appendArg, if_neg hw, List.append_assoc]
    rfl

end Split

/-- The arguments are those that were quoted. -/
theorem split_commandLine {ws : List Text} {text : Text} (h : CommandLine ws text)
    (hne : ∀ w ∈ ws, w ≠ []) : split (Utf8.encode text) = ws.map Utf8.encode :=
  splitLoop_commandLine h hne

end McpeLauncher.Launcher
