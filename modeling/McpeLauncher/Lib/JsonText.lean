import Mathlib.Data.List.TakeWhile
import McpeLauncher.Lib.Utf16

/-!
# JSON texts

The grammar of JSON over Unicode texts: `Denotes` says which value a text stands for. The parser
reads a value from the front of a text; it accepts every text of the grammar (`parse_of_denotes`), so
a text stands for one value at most.
-/

namespace JsonText

abbrev Text := List Char

/-- A number is a mantissa and a power of ten. -/
inductive Value
  | null
  | bool (b : Bool)
  | number (mantissa exponent : Int)
  | string (s : Text)
  | array (items : List Value)
  | object (members : List (Text × Value))

/-! ## The grammar -/

def isBlank (c : Char) : Bool := c == ' ' || c == '\t' || c == '\n' || c == '\r'

def Blank (s : Text) : Prop := ∀ c ∈ s, isBlank c = true

/-- What a letter behind a backslash stands for. -/
def shortEscape (c : Char) : Option Char :=
  if c = '"' ∨ c = '\\' ∨ c = '/' then some c
  else if c = 'b' then some '\x08'
  else if c = 'f' then some '\x0c'
  else if c = 'n' then some '\n'
  else if c = 'r' then some '\r'
  else if c = 't' then some '\t'
  else none

def hexDigit (c : Char) : Option Nat :=
  if '0' ≤ c ∧ c ≤ '9' then some (c.toNat - 48)
  else if 'a' ≤ c ∧ c ≤ 'f' then some (c.toNat - 87)
  else if 'A' ≤ c ∧ c ≤ 'F' then some (c.toNat - 55)
  else none

/-- The number of four hexadecimal digits at the front of a text. -/
def hex4 : Text → Option (Nat × Text)
  | a :: b :: c :: d :: s => do
    let a ← hexDigit a
    let b ← hexDigit b
    let c ← hexDigit c
    let d ← hexDigit d
    some (((a * 16 + b) * 16 + c) * 16 + d, s)
  | _ => none

def pairChar (lead trail : Nat) : Char :=
  Char.ofNat (0x10000 + (lead - 0xd800) * 0x400 + (trail - 0xdc00))

/-- The texts of a character in a string. -/
inductive CharText : Char → Text → Prop
  | plain {c} : 0x20 ≤ c.toNat → c ≠ '"' → c ≠ '\\' → CharText c [c]
  | short {e c} : shortEscape e = some c → CharText c ['\\', e]
  | unit {ds n} : hex4 ds = some (n, []) → Utf16.isLead n = false → Utf16.isTrail n = false →
    CharText (Char.ofNat n) ('\\' :: 'u' :: ds)
  | pair {ds n ds' n'} : hex4 ds = some (n, []) → hex4 ds' = some (n', []) →
    Utf16.isLead n = true → Utf16.isTrail n' = true →
    CharText (pairChar n n') ('\\' :: 'u' :: ds ++ '\\' :: 'u' :: ds')

/-- The texts of a string, with the quote at the end. -/
inductive StringText : Text → Text → Prop
  | nil : StringText [] ['"']
  | cons {c t s ts} : CharText c t → StringText s ts → StringText (c :: s) (t ++ ts)

def digitsValue (ds : Text) : Nat := ds.foldl (fun n c => n * 10 + (c.toNat - 48)) 0

/-- Decimal digits, at least one. -/
def Digits (ds : Text) : Prop := ds ≠ [] ∧ ∀ c ∈ ds, c.isDigit = true

/-- The digits in front of the point have no leading zero. -/
def IntDigits (ds : Text) : Prop := Digits ds ∧ (ds.head? = some '0' → ds = ['0'])

def signed (negative : Bool) (n : Nat) : Int := if negative then -n else n

inductive SignText : Bool → Text → Prop
  | absent : SignText false []
  | plus : SignText false ['+']
  | minus : SignText true ['-']

/-- The digits behind the point, and the text with the point. -/
inductive FractionText : Text → Text → Prop
  | absent : FractionText [] []
  | present {ds} : Digits ds → FractionText ds ('.' :: ds)

inductive ExponentText : Int → Text → Prop
  | absent : ExponentText 0 []
  | present {e negative sign ds} : e = 'e' ∨ e = 'E' → SignText negative sign → Digits ds →
    ExponentText (signed negative (digitsValue ds)) (e :: sign ++ ds)

inductive NumberText : Int → Int → Text → Prop
  | mk {negative sign int fraction point exponent exp} : SignText negative sign → sign ≠ ['+'] →
    IntDigits int → FractionText fraction point → ExponentText exponent exp →
    NumberText (signed negative (digitsValue (int ++ fraction))) (exponent - fraction.length)
      (sign ++ int ++ point ++ exp)

inductive Phrase
  | value (v : Value)
  | items (vs : List Value)
  | members (ms : List (Text × Value))

/-- The texts of values, and of what is within the brackets of an array and of an object that are
not empty. -/
inductive Denotes : Phrase → Text → Prop
  | null : Denotes (.value .null) ['n', 'u', 'l', 'l']
  | trueText : Denotes (.value (.bool true)) ['t', 'r', 'u', 'e']
  | falseText : Denotes (.value (.bool false)) ['f', 'a', 'l', 's', 'e']
  | number {m e t} : NumberText m e t → Denotes (.value (.number m e)) t
  | string {s t} : StringText s t → Denotes (.value (.string s)) ('"' :: t)
  | emptyArray {w} : Blank w → Denotes (.value (.array [])) ('[' :: w ++ [']'])
  | array {vs t} : Denotes (.items vs) t → Denotes (.value (.array vs)) ('[' :: t ++ [']'])
  | emptyObject {w} : Blank w → Denotes (.value (.object [])) ('{' :: w ++ ['}'])
  | object {ms t} : Denotes (.members ms) t → Denotes (.value (.object ms)) ('{' :: t ++ ['}'])
  | item {v t w w'} : Blank w → Denotes (.value v) t → Blank w' → Denotes (.items [v]) (w ++ t ++ w')
  | itemCons {v vs t ts w w'} : Blank w → Denotes (.value v) t → Blank w' → Denotes (.items vs) ts →
    Denotes (.items (v :: vs)) (w ++ t ++ w' ++ ',' :: ts)
  | member {name v n t w w₁ w₂ w'} : Blank w → StringText name n → Blank w₁ → Blank w₂ →
    Denotes (.value v) t → Blank w' →
    Denotes (.members [(name, v)]) (w ++ '"' :: n ++ w₁ ++ ':' :: w₂ ++ t ++ w')
  | memberCons {name v ms n t ts w w₁ w₂ w'} : Blank w → StringText name n → Blank w₁ → Blank w₂ →
    Denotes (.value v) t → Blank w' → Denotes (.members ms) ts →
    Denotes (.members ((name, v) :: ms)) (w ++ '"' :: n ++ w₁ ++ ':' :: w₂ ++ t ++ w' ++ ',' :: ts)

/-! ## The parser -/

def skipBlanks (s : Text) : Text := s.dropWhile isBlank

def parseEscapedUnit (s : Text) : Option (Char × Text) := do
  let (n, s) ← hex4 s
  if Utf16.isTrail n then none
  else if Utf16.isLead n then
    match s with
    | '\\' :: 'u' :: s => do
      let (n', s) ← hex4 s
      if Utf16.isTrail n' then some (pairChar n n', s) else none
    | _ => none
  else some (Char.ofNat n, s)

def parseChar : Text → Option (Char × Text)
  | [] => none
  | c :: s =>
    if c = '\\' then
      match s with
      | [] => none
      | e :: s => if e = 'u' then parseEscapedUnit s else (shortEscape e).map (·, s)
    else if c = '"' ∨ c.toNat < 0x20 then none
    else some (c, s)

/-- A string behind its first quote; each step reads a character. -/
def parseStringLoop : Nat → Text → Option (Text × Text)
  | 0, _ => none
  | fuel + 1, s =>
    if s.head? = some '"' then some ([], s.tail)
    else do
      let (c, s) ← parseChar s
      let (cs, s) ← parseStringLoop fuel s
      some (c :: cs, s)

def parseString (s : Text) : Option (Text × Text) := parseStringLoop s.length s

def parseDigits (s : Text) : Option (Text × Text) :=
  match s.takeWhile Char.isDigit with
  | [] => none
  | d :: ds => some (d :: ds, s.dropWhile Char.isDigit)

/-- A sign, if there is one: whether it is negative. -/
def parseSign : Text → Bool × Text
  | [] => (false, [])
  | c :: s => if c = '-' then (true, s) else if c = '+' then (false, s) else (false, c :: s)

def parseFraction : Text → Option (Text × Text)
  | [] => some ([], [])
  | c :: s => if c = '.' then parseDigits s else some ([], c :: s)

def parseExponent : Text → Option (Int × Text)
  | [] => some (0, [])
  | c :: s =>
    if c = 'e' ∨ c = 'E' then do
      let (negative, s) := parseSign s
      let (ds, s) ← parseDigits s
      some (signed negative (digitsValue ds), s)
    else some (0, c :: s)

def parseNumber (s : Text) : Option (Value × Text) :=
  if s.head? = some '+' then none
  else do
    let (negative, s) := parseSign s
    let (int, s) ← parseDigits s
    if int.head? = some '0' ∧ int ≠ ['0'] then none
    else do
      let (fraction, s) ← parseFraction s
      let (exponent, s) ← parseExponent s
      some (.number (signed negative (digitsValue (int ++ fraction))) (exponent - fraction.length), s)

def keyword (k : Text) (v : Value) (s : Text) : Option (Value × Text) :=
  if k.isPrefixOf s then some (v, s.drop k.length) else none

mutual

def parseValue : Nat → Text → Option (Value × Text)
  | 0, _ => none
  | _, [] => none
  | fuel + 1, c :: s =>
    if c = '"' then (parseString s).map fun p => (.string p.1, p.2)
    else if c = '[' then
      if (skipBlanks s).head? = some ']' then some (.array [], (skipBlanks s).tail)
      else (parseItems fuel s).map fun p => (.array p.1, p.2)
    else if c = '{' then
      if (skipBlanks s).head? = some '}' then some (.object [], (skipBlanks s).tail)
      else (parseMembers fuel s).map fun p => (.object p.1, p.2)
    else if c = 'n' then keyword ['n', 'u', 'l', 'l'] .null (c :: s)
    else if c = 't' then keyword ['t', 'r', 'u', 'e'] (.bool true) (c :: s)
    else if c = 'f' then keyword ['f', 'a', 'l', 's', 'e'] (.bool false) (c :: s)
    else parseNumber (c :: s)

/-- Items up to the bracket behind them. -/
def parseItems : Nat → Text → Option (List Value × Text)
  | 0, _ => none
  | fuel + 1, s => do
    let (v, s) ← parseValue fuel (skipBlanks s)
    match skipBlanks s with
    | [] => none
    | c :: s =>
      if c = ']' then some ([v], s)
      else if c = ',' then do
        let (vs, s) ← parseItems fuel s
        some (v :: vs, s)
      else none

/-- Members up to the brace behind them. -/
def parseMembers : Nat → Text → Option (List (Text × Value) × Text)
  | 0, _ => none
  | fuel + 1, s =>
    if (skipBlanks s).head? ≠ some '"' then none
    else do
      let (name, s) ← parseString (skipBlanks s).tail
      if (skipBlanks s).head? ≠ some ':' then none
      else do
        let (v, s) ← parseValue fuel (skipBlanks (skipBlanks s).tail)
        match skipBlanks s with
        | [] => none
        | c :: s =>
          if c = '}' then some ([(name, v)], s)
          else if c = ',' then do
            let (ms, s) ← parseMembers fuel s
            some ((name, v) :: ms, s)
          else none

end

/-- The value of a whole text. -/
def parse (s : Text) : Option Value :=
  match parseValue (s.length + 1) (skipBlanks s) with
  | some (v, s) => if skipBlanks s = [] then some v else none
  | none => none

/-! ## The parser reads what the grammar has -/

section Strings

variable {c : Char} {t ds : Text} {n : Nat}

theorem hex4_append (h : hex4 ds = some (n, [])) (r : Text) : hex4 (ds ++ r) = some (n, r) := by
  match ds, h with
  | a :: b :: c :: d :: s, h =>
    simp only [hex4, Option.bind_eq_bind, Option.bind_eq_some_iff] at h
    obtain ⟨a', ha, b', hb, c', hc, d', hd, heq⟩ := h
    cases heq
    simp only [List.cons_append, List.nil_append, hex4, ha, hb, hc, hd, Option.bind_eq_bind,
      Option.bind_some]

theorem ne_u_of_shortEscape {e : Char} (h : shortEscape e = some c) : e ≠ 'u' := by
  rintro rfl
  have hnone : shortEscape 'u' = none := by decide
  cases hnone.symm.trans h

theorem parseEscapedUnit_unit (h : hex4 ds = some (n, [])) (hlead : Utf16.isLead n = false)
    (htrail : Utf16.isTrail n = false) (r : Text) :
    parseEscapedUnit (ds ++ r) = some (Char.ofNat n, r) := by
  simp [parseEscapedUnit, hex4_append h, hlead, htrail]

theorem isTrail_of_isLead (h : Utf16.isLead n = true) : Utf16.isTrail n = false := by
  simp only [Utf16.isLead, Utf16.isTrail, Bool.and_eq_true, decide_eq_true_eq,
    Bool.and_eq_false_iff, decide_eq_false_iff_not] at h ⊢
  omega

theorem parseEscapedUnit_pair {ds' : Text} {n' : Nat} (h : hex4 ds = some (n, []))
    (h' : hex4 ds' = some (n', [])) (hlead : Utf16.isLead n = true)
    (htrail : Utf16.isTrail n' = true) (r : Text) :
    parseEscapedUnit (ds ++ '\\' :: 'u' :: (ds' ++ r)) = some (pairChar n n', r) := by
  simp [parseEscapedUnit, hex4_append h, hex4_append h', hlead, htrail, isTrail_of_isLead hlead]

/-- A character of a string is read, whatever is behind it. -/
theorem parseChar_append (h : CharText c t) (r : Text) : parseChar (t ++ r) = some (c, r) := by
  cases h with
  | plain hc hquote hescape =>
    have hnot : ¬(c = '"' ∨ c.toNat < 0x20) := by
      rintro (rfl | h)
      · exact hquote rfl
      · omega
    exact (if_neg hescape).trans (if_neg hnot)
  | short he =>
    simp [parseChar, ne_u_of_shortEscape he, he]
  | unit hn hlead htrail =>
    simp [parseChar, parseEscapedUnit_unit hn hlead htrail]
  | pair hn hn' hlead htrail =>
    simp [parseChar, parseEscapedUnit_pair hn hn' hlead htrail]

theorem CharText.head?_ne (h : CharText c t) : ∃ d s, t = d :: s ∧ d ≠ '"' := by
  cases h with
  | plain hc hquote hescape => exact ⟨c, [], rfl, hquote⟩
  | short he => exact ⟨_, _, rfl, by decide⟩
  | unit hn hlead htrail => exact ⟨_, _, rfl, by decide⟩
  | pair hn hn' hlead htrail => exact ⟨_, _, rfl, by decide⟩

theorem parseStringLoop_append {s : Text} (h : StringText s t) {fuel : Nat}
    (hfuel : t.length ≤ fuel) (r : Text) : parseStringLoop fuel (t ++ r) = some (s, r) := by
  induction h generalizing fuel with
  | nil =>
    obtain ⟨fuel, rfl⟩ : ∃ n, fuel = n + 1 := ⟨fuel - 1, by simp at hfuel; omega⟩
    rfl
  | @cons c t s ts hc _ ih =>
    obtain ⟨d, t', rfl, hd⟩ := hc.head?_ne
    rw [List.length_append, List.length_cons] at hfuel
    obtain ⟨fuel, rfl⟩ : ∃ n, fuel = n + 1 := ⟨fuel - 1, by omega⟩
    have hhead : ¬(d :: t' ++ ts ++ r).head? = some '"' := fun h => hd (Option.some.inj h)
    have hloop : parseStringLoop fuel (ts ++ r) = some (s, r) := ih (by omega)
    rw [parseStringLoop, if_neg hhead, List.append_assoc, parseChar_append hc]
    simp [hloop]

theorem parseString_append {s : Text} (h : StringText s t) (r : Text) :
    parseString (t ++ r) = some (s, r) :=
  parseStringLoop_append h (by simp) r

end Strings

section Numbers

variable {ds r t : Text}

/-- A text that does not go on with a digit. -/
def NoDigit (r : Text) : Prop := ∀ c, r.head? = some c → c.isDigit = false

/-- A text behind which no number goes on. -/
def Ends (r : Text) : Prop := ∀ c, r.head? = some c → c.isDigit = false ∧ c ≠ '.' ∧ c ≠ 'e' ∧ c ≠ 'E'

theorem Ends.noDigit (h : Ends r) : NoDigit r := fun c hc => (h c hc).1

theorem parseDigits_append (h : Digits ds) (hr : NoDigit r) :
    parseDigits (ds ++ r) = some (ds, r) := by
  have htake : r.takeWhile Char.isDigit = [] ∧ r.dropWhile Char.isDigit = r := by
    cases r with
    | nil => exact ⟨rfl, rfl⟩
    | cons c r =>
      have hc : ¬c.isDigit = true := by simp [hr c rfl]
      exact ⟨List.takeWhile_cons_of_neg hc, List.dropWhile_cons_of_neg hc⟩
  rw [parseDigits, List.takeWhile_append_of_pos h.2, List.dropWhile_append_of_pos h.2, htake.1,
    htake.2, List.append_nil]
  obtain ⟨d, ds, rfl⟩ := List.exists_cons_of_ne_nil h.1
  rfl

theorem parseSign_append {negative : Bool} {sign : Text} (h : SignText negative sign)
    (hds : Digits ds) (r : Text) : parseSign (sign ++ (ds ++ r)) = (negative, ds ++ r) := by
  cases h with
  | absent =>
    obtain ⟨d, ds, rfl⟩ := List.exists_cons_of_ne_nil hds.1
    have hd := hds.2 d (.head _)
    have hminus : d ≠ '-' := by rintro rfl; cases hd
    have hplus : d ≠ '+' := by rintro rfl; cases hd
    exact (if_neg hminus).trans (if_neg hplus)
  | plus => rfl
  | minus => rfl

theorem parseFraction_append (h : FractionText ds t) (hr : NoDigit r)
    (hpoint : r.head? ≠ some '.') : parseFraction (t ++ r) = some (ds, r) := by
  cases h with
  | absent =>
    cases r with
    | nil => rfl
    | cons c r => exact if_neg fun h => hpoint (congrArg some h)
  | present hds =>
    rw [List.cons_append, parseFraction, if_pos rfl, parseDigits_append hds hr]

theorem parseExponent_append {e : Int} (h : ExponentText e t) (hr : Ends r) :
    parseExponent (t ++ r) = some (e, r) := by
  cases h with
  | absent =>
    cases r with
    | nil => rfl
    | cons c r => exact if_neg fun h => h.elim (hr c rfl).2.2.1 (hr c rfl).2.2.2
  | @present c negative sign ds hc hsign hds =>
    rw [List.append_assoc, List.cons_append, parseExponent, if_pos hc, parseSign_append hsign hds]
    simp only [parseDigits_append hds hr.noDigit, Option.bind_eq_bind, Option.bind_some]

theorem ExponentText.head?_append {e : Int} (h : ExponentText e t) (hr : Ends r) :
    NoDigit (t ++ r) ∧ (t ++ r).head? ≠ some '.' := by
  cases h with
  | absent => exact ⟨hr.noDigit, fun h => (hr '.' h).2.1 rfl⟩
  | present hc _ _ =>
    obtain rfl | rfl := hc
    · exact ⟨fun c h => Option.some.inj h ▸ rfl, by simp⟩
    · exact ⟨fun c h => Option.some.inj h ▸ rfl, by simp⟩

theorem FractionText.noDigit_append (h : FractionText ds t) (hr : NoDigit r) :
    NoDigit (t ++ r) := by
  cases h with
  | absent => exact hr
  | present _ => exact fun c h => Option.some.inj h ▸ rfl

theorem IntDigits.not_zero (h : IntDigits ds) : ¬(ds.head? = some '0' ∧ ds ≠ ['0']) :=
  fun hzero => hzero.2 (h.2 hzero.1)

theorem NumberText.head?_ne {m e : Int} (h : NumberText m e t) :
    ∃ c s, t = c :: s ∧ (c = '-' ∨ c.isDigit = true) := by
  cases h with
  | @mk negative sign int fraction point exponent exp hsign hplus hint _ _ =>
    cases hsign with
    | absent =>
      obtain ⟨d, int, rfl⟩ := List.exists_cons_of_ne_nil hint.1.1
      exact ⟨d, _, rfl, .inr (hint.1.2 d (.head _))⟩
    | plus => exact absurd rfl hplus
    | minus => exact ⟨'-', _, rfl, .inl rfl⟩

theorem parseNumber_append {m e : Int} (h : NumberText m e t) (hr : Ends r) :
    parseNumber (t ++ r) = some (.number m e, r) := by
  have hhead : ¬(t ++ r).head? = some '+' := by
    obtain ⟨c, s, rfl, hc⟩ := h.head?_ne
    rintro heq
    cases Option.some.inj heq
    simp at hc
  cases h with
  | @mk negative sign int fraction point exponent exp hsign hplus hint hfraction hexponent =>
    obtain ⟨hdigit, hpoint⟩ := hexponent.head?_append hr
    rw [parseNumber, if_neg hhead, List.append_assoc, List.append_assoc, List.append_assoc,
      parseSign_append hsign hint.1]
    simp only [parseDigits_append hint.1 (hfraction.noDigit_append hdigit), if_neg hint.not_zero,
      parseFraction_append hfraction hdigit hpoint, parseExponent_append hexponent hr,
      Option.bind_eq_bind, Option.bind_some]

end Numbers

section Values

variable {c : Char} {v : Value} {t w r : Text}

theorem skipBlanks_append (hw : Blank w) (hc : isBlank c = false) (s : Text) :
    skipBlanks (w ++ c :: s) = c :: s := by
  rw [skipBlanks, List.dropWhile_append_of_pos hw, List.dropWhile_cons_of_neg (by simp [hc])]

theorem ends_cons (h : isBlank c = true ∨ c = ',' ∨ c = ']' ∨ c = '}') (s : Text) :
    Ends (c :: s) := by
  rintro d hd
  cases Option.some.inj hd
  simp only [isBlank, Bool.or_eq_true, beq_iff_eq] at h
  obtain (((rfl | rfl) | rfl) | rfl) | rfl | rfl | rfl := h <;> decide

theorem ends_append (hw : Blank w) (h : c = ',' ∨ c = ']' ∨ c = '}') (s : Text) :
    Ends (w ++ c :: s) := by
  cases w with
  | nil => exact ends_cons (.inr h) s
  | cons d w => exact ends_cons (.inl (hw d (.head _))) _

/-- The first character of a value. -/
theorem Denotes.head?_value (h : Denotes (.value v) t) :
    ∃ c s, t = c :: s ∧ isBlank c = false ∧ c ≠ ']' := by
  cases h with
  | number h =>
    obtain ⟨c, s, rfl, hc⟩ := h.head?_ne
    refine ⟨c, s, rfl, ?_, ?_⟩
    · rw [Bool.eq_false_iff]
      intro hblank
      simp only [isBlank, Bool.or_eq_true, beq_iff_eq] at hblank
      obtain ((rfl | rfl) | rfl) | rfl := hblank <;> exact absurd hc (by decide)
    · rintro rfl
      exact absurd hc (by decide)
  | null => exact ⟨_, _, rfl, rfl, by decide⟩
  | trueText => exact ⟨_, _, rfl, rfl, by decide⟩
  | falseText => exact ⟨_, _, rfl, rfl, by decide⟩
  | string _ => exact ⟨_, _, rfl, rfl, by decide⟩
  | emptyArray _ => exact ⟨_, _, rfl, rfl, by decide⟩
  | array _ => exact ⟨_, _, rfl, rfl, by decide⟩
  | emptyObject _ => exact ⟨_, _, rfl, rfl, by decide⟩
  | object _ => exact ⟨_, _, rfl, rfl, by decide⟩

theorem skipBlanks_value (hw : Blank w) (h : Denotes (.value v) t) (r : Text) :
    skipBlanks (w ++ (t ++ r)) = t ++ r := by
  obtain ⟨c, s, rfl, hc, -⟩ := h.head?_value
  exact skipBlanks_append hw hc (s ++ r)

theorem Denotes.head?_items {vs : List Value} (h : Denotes (.items vs) t) (r : Text) :
    (skipBlanks (t ++ r)).head? ≠ some ']' := by
  cases h with
  | item hw hv _ =>
    obtain ⟨c, s, rfl, -, hc⟩ := hv.head?_value
    rw [List.append_assoc, List.append_assoc, skipBlanks_value hw hv]
    exact fun h => hc (Option.some.inj h)
  | itemCons hw hv _ _ =>
    obtain ⟨c, s, rfl, -, hc⟩ := hv.head?_value
    rw [List.append_assoc, List.append_assoc, List.append_assoc, skipBlanks_value hw hv]
    exact fun h => hc (Option.some.inj h)

theorem Denotes.head?_members {ms : List (Text × Value)} (h : Denotes (.members ms) t) (r : Text) :
    (skipBlanks (t ++ r)).head? ≠ some '}' := by
  cases h with
  | member hw _ _ _ _ _ =>
    simp only [List.append_assoc, List.cons_append]
    rw [skipBlanks_append hw rfl]
    simp
  | memberCons hw _ _ _ _ _ _ =>
    simp only [List.append_assoc, List.cons_append]
    rw [skipBlanks_append hw rfl]
    simp

/-- What the parser does with a phrase; the brackets of items and members are behind them. -/
def Reads : Phrase → Text → Prop
  | .value v, t =>
    ∀ fuel, t.length ≤ fuel → ∀ r, Ends r → parseValue (fuel + 1) (t ++ r) = some (v, r)
  | .items vs, t =>
    ∀ fuel, t.length < fuel → ∀ r, parseItems (fuel + 1) (t ++ ']' :: r) = some (vs, r)
  | .members ms, t =>
    ∀ fuel, t.length < fuel → ∀ r, parseMembers (fuel + 1) (t ++ '}' :: r) = some (ms, r)

theorem reads_number {m e : Int} (h : NumberText m e t) : Reads (.value (.number m e)) t := by
  intro fuel _ r hr
  obtain ⟨c, s, rfl, hc⟩ := h.head?_ne
  have hne : c ≠ '"' ∧ c ≠ '[' ∧ c ≠ '{' ∧ c ≠ 'n' ∧ c ≠ 't' ∧ c ≠ 'f' := by
    refine ⟨?_, ?_, ?_, ?_, ?_, ?_⟩ <;> rintro rfl <;> exact absurd hc (by decide)
  obtain ⟨hquote, hbracket, hbrace, hn, ht, hf⟩ := hne
  rw [List.cons_append, parseValue, if_neg hquote, if_neg hbracket, if_neg hbrace, if_neg hn,
    if_neg ht, if_neg hf]
  exact parseNumber_append h hr

theorem reads_array {vs : List Value} (h : Denotes (.items vs) t) (ih : Reads (.items vs) t) :
    Reads (.value (.array vs)) ('[' :: t ++ [']']) := by
  intro fuel hfuel r _
  simp only [List.length_append, List.length_cons, List.length_nil] at hfuel
  obtain ⟨fuel, rfl⟩ : ∃ n, fuel = n + 1 := ⟨fuel - 1, by omega⟩
  rw [List.append_assoc, List.cons_append, parseValue, if_neg (by decide), if_pos rfl,
    if_neg (h.head?_items _)]
  simp [ih fuel (by omega) r]

theorem reads_object {ms : List (Text × Value)} (h : Denotes (.members ms) t)
    (ih : Reads (.members ms) t) : Reads (.value (.object ms)) ('{' :: t ++ ['}']) := by
  intro fuel hfuel r _
  simp only [List.length_append, List.length_cons, List.length_nil] at hfuel
  obtain ⟨fuel, rfl⟩ : ∃ n, fuel = n + 1 := ⟨fuel - 1, by omega⟩
  rw [List.append_assoc, List.cons_append, parseValue, if_neg (by decide), if_neg (by decide),
    if_pos rfl, if_neg (h.head?_members _)]
  simp [ih fuel (by omega) r]

/-- A value among items: `c` is behind it. -/
theorem parseItems_value (hw : Blank w) (hv : Denotes (.value v) t) (ih : Reads (.value v) t)
    {w' : Text} (hw' : Blank w') (hc : c = ',' ∨ c = ']' ∨ c = '}') {fuel : Nat}
    (hfuel : t.length < fuel) (s : Text) :
    parseItems (fuel + 1) (w ++ t ++ w' ++ c :: s) =
      if c = ']' then some ([v], s)
      else if c = ',' then (parseItems fuel s).bind fun p => some (v :: p.1, p.2)
      else none := by
  obtain ⟨fuel, rfl⟩ : ∃ n, fuel = n + 1 := ⟨fuel - 1, by omega⟩
  have hblank : isBlank c = false := by obtain rfl | rfl | rfl := hc <;> rfl
  rw [List.append_assoc, List.append_assoc, parseItems, skipBlanks_value hw hv,
    ih fuel (by omega) _ (ends_append hw' hc s)]
  simp only [Option.bind_eq_bind, Option.bind_some, skipBlanks_append hw' hblank]

theorem parseMembers_member {name n w₁ w₂ w' : Text} (hw : Blank w) (hn : StringText name n)
    (hw₁ : Blank w₁) (hw₂ : Blank w₂) (hv : Denotes (.value v) t) (ih : Reads (.value v) t)
    (hw' : Blank w') (hc : c = ',' ∨ c = ']' ∨ c = '}') {fuel : Nat} (hfuel : t.length < fuel)
    (s : Text) :
    parseMembers (fuel + 1) (w ++ '"' :: n ++ w₁ ++ ':' :: w₂ ++ t ++ w' ++ c :: s) =
      if c = '}' then some ([(name, v)], s)
      else if c = ',' then (parseMembers fuel s).bind fun p => some ((name, v) :: p.1, p.2)
      else none := by
  obtain ⟨fuel, rfl⟩ : ∃ n, fuel = n + 1 := ⟨fuel - 1, by omega⟩
  have hblank : isBlank c = false := by obtain rfl | rfl | rfl := hc <;> rfl
  have hcolon : isBlank ':' = false := rfl
  have htext : w ++ '"' :: n ++ w₁ ++ ':' :: w₂ ++ t ++ w' ++ c :: s =
      w ++ '"' :: (n ++ (w₁ ++ ':' :: (w₂ ++ (t ++ (w' ++ c :: s))))) := by simp
  rw [htext, parseMembers, skipBlanks_append hw rfl, if_neg (by simp), List.tail_cons,
    parseString_append hn]
  simp only [Option.bind_eq_bind, Option.bind_some, skipBlanks_append hw₁ hcolon]
  rw [if_neg (by simp), List.tail_cons, skipBlanks_value hw₂ hv,
    ih fuel (by omega) _ (ends_append hw' hc s)]
  simp only [Option.bind_some, skipBlanks_append hw' hblank]

/-- The parser reads every phrase, by its grammar. -/
theorem Denotes.reads {p : Phrase} (h : Denotes p t) : Reads p t := by
  induction h with
  | null => exact fun _ _ _ _ => rfl
  | trueText => exact fun _ _ _ _ => rfl
  | falseText => exact fun _ _ _ _ => rfl
  | number h => exact reads_number h
  | string h =>
    intro fuel _ r _
    rw [List.cons_append, parseValue, if_pos rfl, parseString_append h]
    rfl
  | emptyArray hw =>
    intro fuel _ r _
    rw [List.append_assoc, List.cons_append, parseValue, if_neg (by decide), if_pos rfl,
      List.singleton_append, skipBlanks_append hw rfl]
    rfl
  | emptyObject hw =>
    intro fuel _ r _
    rw [List.append_assoc, List.cons_append, parseValue, if_neg (by decide), if_neg (by decide),
      if_pos rfl, List.singleton_append, skipBlanks_append hw rfl]
    rfl
  | array h ih => exact reads_array h ih
  | object h ih => exact reads_object h ih
  | item hw hv hw' ih =>
    intro fuel hfuel r
    simp only [List.length_append] at hfuel
    exact (parseItems_value hw hv ih hw' (.inr (.inl rfl)) (by omega) r).trans (if_pos rfl)
  | @itemCons v vs t ts w w' hw hv hw' _ ih ihs =>
    intro fuel hfuel r
    simp only [List.length_append, List.length_cons] at hfuel
    obtain ⟨fuel, rfl⟩ : ∃ n, fuel = n + 1 := ⟨fuel - 1, by omega⟩
    rw [List.append_assoc, List.cons_append,
      parseItems_value hw hv ih hw' (.inl rfl) (by omega), if_neg (by decide), if_pos rfl,
      ihs fuel (by omega) r]
    rfl
  | member hw hn hw₁ hw₂ hv hw' ih =>
    intro fuel hfuel r
    simp only [List.length_append, List.length_cons] at hfuel
    exact (parseMembers_member hw hn hw₁ hw₂ hv ih hw' (.inr (.inr rfl)) (by omega) r).trans
      (if_pos rfl)
  | @memberCons name v ms n t ts w w₁ w₂ w' hw hn hw₁ hw₂ hv hw' _ ih ihs =>
    intro fuel hfuel r
    simp only [List.length_append, List.length_cons] at hfuel
    obtain ⟨fuel, rfl⟩ : ∃ n, fuel = n + 1 := ⟨fuel - 1, by omega⟩
    rw [List.append_assoc, List.cons_append,
      parseMembers_member hw hn hw₁ hw₂ hv ih hw' (.inl rfl) (by omega), if_neg (by decide),
      if_pos rfl, ihs fuel (by omega) r]
    rfl

/-- A text of the grammar is parsed to its value. -/
theorem parse_of_denotes {w' : Text} (hw : Blank w) (h : Denotes (.value v) t) (hw' : Blank w') :
    parse (w ++ t ++ w') = some v := by
  have hends : Ends w' := by
    cases w' with
    | nil => exact fun _ h => nomatch h
    | cons c w' => exact ends_cons (.inl (hw' c (.head _))) w'
  have hskip : skipBlanks w' = [] := by
    rw [skipBlanks, List.dropWhile_eq_nil_iff]
    exact hw'
  rw [parse, List.append_assoc, skipBlanks_value hw h, h.reads _ (by simp; omega) w' hends]
  exact if_pos hskip

end Values

end JsonText
