import McpeLauncher.Lib.Decimal
import McpeLauncher.Lib.JsonText

/-!
# Writing JSON texts

The text of a value without blanks, with the short escapes and with `\u` for the other control
characters. It is a text of the grammar, so that it is read back as the value.
-/

namespace JsonText

def hexChar (d : Nat) : Char := if d < 10 then Char.ofNat (48 + d) else Char.ofNat (87 + d)

def escapeChar (c : Char) : Text :=
  if c = '"' ∨ c = '\\' then ['\\', c]
  else if c = '\x08' then ['\\', 'b']
  else if c = '\x0c' then ['\\', 'f']
  else if c = '\n' then ['\\', 'n']
  else if c = '\r' then ['\\', 'r']
  else if c = '\t' then ['\\', 't']
  else if c.toNat < 0x20 then ['\\', 'u', '0', '0', hexChar (c.toNat / 16), hexChar (c.toNat % 16)]
  else [c]

def escape (s : Text) : Text := s.flatMap escapeChar

def quoted (s : Text) : Text := '"' :: escape s ++ ['"']

/-- The decimal text of a number. -/
def intText (n : Int) : Text := (Decimal.intText n).map fun b => Char.ofNat b.toNat

def numberText (mantissa exponent : Int) : Text :=
  intText mantissa ++ if exponent = 0 then [] else 'e' :: intText exponent

mutual

def render : Value → Text
  | .null => ['n', 'u', 'l', 'l']
  | .bool true => ['t', 'r', 'u', 'e']
  | .bool false => ['f', 'a', 'l', 's', 'e']
  | .number mantissa exponent => numberText mantissa exponent
  | .string s => quoted s
  | .array items => '[' :: renderItems items ++ [']']
  | .object members => '{' :: renderMembers members ++ ['}']

def renderItems : List Value → Text
  | [] => []
  | [v] => render v
  | v :: v' :: vs => render v ++ ',' :: renderItems (v' :: vs)

def renderMembers : List (Text × Value) → Text
  | [] => []
  | [(name, v)] => quoted name ++ ':' :: render v
  | (name, v) :: m :: ms => quoted name ++ ':' :: render v ++ ',' :: renderMembers (m :: ms)

end

section Render

variable {c : Char} {n : Nat}

theorem hex4_hexChar (h : n < 32) :
    hex4 ['0', '0', hexChar (n / 16), hexChar (n % 16)] = some (n, []) := by
  revert n
  decide

theorem charText_escapeChar (c : Char) : CharText c (escapeChar c) := by
  unfold escapeChar
  split_ifs with hsame hb hf hn hr ht hcontrol
  · exact .short (if_pos (hsame.imp_right .inl))
  · exact .short (hb ▸ rfl)
  · exact .short (hf ▸ rfl)
  · exact .short (hn ▸ rfl)
  · exact .short (hr ▸ rfl)
  · exact .short (ht ▸ rfl)
  · have hunit : CharText (Char.ofNat c.toNat) ('\\' :: 'u' ::
        ['0', '0', hexChar (c.toNat / 16), hexChar (c.toNat % 16)]) :=
      .unit (hex4_hexChar hcontrol) (by simp [Utf16.isLead]; omega) (by simp [Utf16.isTrail]; omega)
    rwa [Char.ofNat_toNat] at hunit
  · exact .plain (by omega) (fun h => hsame (.inl h)) fun h => hsame (.inr h)

theorem stringText_escape (s : Text) : StringText s (escape s ++ ['"']) := by
  induction s with
  | nil => exact .nil
  | cons c s ih =>
    rw [escape, List.flatMap_cons, List.append_assoc]
    exact .cons (charText_escapeChar c) ih

theorem toNat_ofNat_byte (b : UInt8) : (Char.ofNat b.toNat).toNat = b.toNat := by
  have hlt : b.toNat < 256 := b.toNat_lt
  have hvalid : b.toNat.isValidChar := .inl (by omega)
  rw [Char.ofNat, dif_pos hvalid]
  rfl

theorem digitsValue_map (ds : List UInt8) :
    digitsValue (ds.map fun b => Char.ofNat b.toNat) = Decimal.digitsValue ds := by
  induction ds using List.reverseRecOn with
  | nil => rfl
  | append_singleton ds b ih =>
    have hvalue : Decimal.digitsValue (ds ++ [b]) =
        (b.toNat - 48) + 10 * Decimal.digitsValue ds := by
      simp [Decimal.digitsValue, Nat.ofDigits_cons]
    rw [hvalue, ← ih, List.map_append, List.map_singleton, digitsValue, List.foldl_append,
      List.foldl_cons, List.foldl_nil, toNat_ofNat_byte]
    exact (Nat.add_comm _ _).trans (congrArg _ (Nat.mul_comm _ _))

theorem isDigit_ofNat {b : UInt8} (h : Decimal.isDigit b = true) :
    (Char.ofNat b.toNat).isDigit = true := by
  have hall : ∀ b : BitVec 8, Decimal.isDigit ⟨b⟩ = true →
      (Char.ofNat (UInt8.ofBitVec b).toNat).isDigit = true := by decide
  exact hall b.toBitVec h

theorem digits_natText (n : Nat) :
    Digits ((Decimal.natText n).map fun b => Char.ofNat b.toNat) := by
  refine ⟨fun h => Decimal.natText_ne_nil n (List.map_eq_nil_iff.mp h), fun c hc => ?_⟩
  obtain ⟨b, hb, rfl⟩ := List.mem_map.mp hc
  exact isDigit_ofNat (Decimal.natText_isDigit n b hb)

theorem intDigits_natText (n : Nat) :
    IntDigits ((Decimal.natText n).map fun b => Char.ofNat b.toNat) := by
  refine ⟨digits_natText n, fun hzero => ?_⟩
  by_cases hn : n = 0
  · subst hn
    rfl
  · exfalso
    -- the first digit is the last one of `Nat.digits`, which is not zero
    rw [Decimal.natText, if_neg hn, List.map_map, List.head?_map, List.head?_reverse,
      List.getLast?_eq_some_getLast (Nat.digits_ne_nil_iff_ne_zero.mpr hn)] at hzero
    have hpos := Nat.getLast_digit_ne_zero 10 hn
    have hlt := Nat.digits_lt_base (b := 10) (by decide)
      (List.getLast_mem (Nat.digits_ne_nil_iff_ne_zero.mpr hn))
    generalize (Nat.digits 10 n).getLast _ = d at *
    interval_cases d
    · exact hpos rfl
    all_goals exact absurd hzero (by decide)

/-- The text of a number: a sign and digits. -/
theorem exists_intText (n : Int) : ∃ negative sign ds, intText n = sign ++ ds ∧
    SignText negative sign ∧ sign ≠ ['+'] ∧ IntDigits ds ∧ signed negative (digitsValue ds) = n := by
  have hvalue : digitsValue ((Decimal.natText n.natAbs).map fun b => Char.ofNat b.toNat) =
      n.natAbs := by rw [digitsValue_map, Decimal.digitsValue_natText]
  rw [intText, Decimal.intText]
  split
  · refine ⟨true, ['-'], _, rfl, .minus, by decide, intDigits_natText n.natAbs, ?_⟩
    rw [hvalue, signed]
    simp only [if_true]
    omega
  · refine ⟨false, [], _, rfl, .absent, by decide, intDigits_natText n.natAbs, ?_⟩
    rw [hvalue, signed]
    simp only [Bool.false_eq_true, if_false]
    omega

theorem exponentText_intText (e : Int) :
    ExponentText e (if e = 0 then [] else 'e' :: intText e) := by
  split
  · next h => exact h ▸ .absent
  · obtain ⟨negative, sign, ds, htext, hsign, -, hds, hvalue⟩ := exists_intText e
    rw [htext, ← hvalue]
    exact .present (.inl rfl) hsign hds.1

theorem numberText_numberText (m e : Int) : NumberText m e (numberText m e) := by
  obtain ⟨negative, sign, ds, htext, hsign, hplus, hds, hvalue⟩ := exists_intText m
  have hnumber := NumberText.mk hsign hplus hds .absent (exponentText_intText e)
  rw [List.append_nil, List.append_nil, hvalue, ← htext] at hnumber
  simpa [numberText] using hnumber

theorem blank_nil : Blank [] := fun _ h => nomatch h

end Render

mutual

theorem denotes_render : ∀ v, Denotes (.value v) (render v)
  | .null => .null
  | .bool true => .trueText
  | .bool false => .falseText
  | .number m e => .number (numberText_numberText m e)
  | .string s => .string (stringText_escape s)
  | .array [] => .emptyArray blank_nil
  | .array (v :: vs) => .array (denotes_renderItems (v :: vs) (List.cons_ne_nil v vs))
  | .object [] => .emptyObject blank_nil
  | .object (m :: ms) => .object (denotes_renderMembers (m :: ms) (List.cons_ne_nil m ms))

theorem denotes_renderItems : ∀ vs, vs ≠ [] → Denotes (.items vs) (renderItems vs)
  | [], h => absurd rfl h
  | [v], _ => by
    have hitem := Denotes.item blank_nil (denotes_render v) blank_nil
    rwa [List.nil_append, List.append_nil] at hitem
  | v :: v' :: vs, _ => by
    have hitems := Denotes.itemCons blank_nil (denotes_render v) blank_nil
      (denotes_renderItems (v' :: vs) (List.cons_ne_nil v' vs))
    rwa [List.nil_append, List.append_nil] at hitems

theorem denotes_renderMembers : ∀ ms, ms ≠ [] → Denotes (.members ms) (renderMembers ms)
  | [], h => absurd rfl h
  | [(name, v)], _ => by
    have hmember := Denotes.member blank_nil (stringText_escape name) blank_nil blank_nil
      (denotes_render v) blank_nil
    simpa [renderMembers, quoted] using hmember
  | (name, v) :: m :: ms, _ => by
    have hmembers := Denotes.memberCons blank_nil (stringText_escape name) blank_nil blank_nil
      (denotes_render v) blank_nil (denotes_renderMembers (m :: ms) (List.cons_ne_nil m ms))
    simpa [renderMembers, quoted] using hmembers

end

theorem parse_render (v : Value) : parse (render v) = some v := by
  have hparse := parse_of_denotes blank_nil (denotes_render v) blank_nil
  rwa [List.nil_append, List.append_nil] at hparse

/-! ## Texts that are put together -/

section Pieces

variable {m : Text × Value} {ms ms' : List (Text × Value)} {vs : List Value}

def memberText (m : Text × Value) : Text := quoted m.1 ++ ':' :: render m.2

theorem renderMembers_singleton (m : Text × Value) : renderMembers [m] = memberText m := by
  rw [renderMembers, memberText]

theorem renderMembers_cons (m : Text × Value) (h : ms ≠ []) :
    renderMembers (m :: ms) = memberText m ++ ',' :: renderMembers ms := by
  obtain ⟨m', ms, rfl⟩ := List.exists_cons_of_ne_nil h
  rw [renderMembers, memberText]

theorem renderItems_cons (v : Value) (h : vs ≠ []) :
    renderItems (v :: vs) = render v ++ ',' :: renderItems vs := by
  obtain ⟨v', vs, rfl⟩ := List.exists_cons_of_ne_nil h
  rw [renderItems]

/-- Members with a comma behind each, in front of others. -/
theorem renderMembers_append (ms : List (Text × Value)) (h : ms' ≠ []) :
    renderMembers (ms ++ ms') = (ms.flatMap fun m => memberText m ++ [',']) ++ renderMembers ms' := by
  induction ms with
  | nil => rfl
  | cons m ms ih =>
    rw [List.cons_append, renderMembers_cons m (by simp [h]), ih, List.flatMap_cons]
    simp

theorem renderMembers_concat (ms : List (Text × Value)) (m : Text × Value) :
    renderMembers (ms ++ [m]) =
      (if ms = [] then [] else renderMembers ms ++ [',']) ++ memberText m := by
  induction ms with
  | nil => exact renderMembers_singleton m
  | cons m' ms ih =>
    rw [if_neg (List.cons_ne_nil m' ms), List.cons_append, renderMembers_cons m' (by simp), ih]
    by_cases h : ms = []
    · simp [h, renderMembers_singleton]
    · simp [h, renderMembers_cons m' h]

theorem renderItems_concat (vs : List Value) (v : Value) :
    renderItems (vs ++ [v]) = (if vs = [] then [] else renderItems vs ++ [',']) ++ render v := by
  induction vs with
  | nil => rw [List.nil_append, renderItems]; rfl
  | cons v' vs ih =>
    rw [if_neg (List.cons_ne_nil v' vs), List.cons_append, renderItems_cons v' (by simp), ih]
    by_cases h : vs = []
    · simp [h, renderItems]
    · simp [h, renderItems_cons v' h]

/-- A character that stands for itself in a string. -/
def Plain (c : Char) : Prop := 0x20 ≤ c.toNat ∧ c ≠ '"' ∧ c ≠ '\\'

instance (c : Char) : Decidable (Plain c) := inferInstanceAs (Decidable (_ ∧ _))

theorem escapeChar_of_plain {c : Char} (h : Plain c) : escapeChar c = [c] := by
  obtain ⟨hc, hquote, hescape⟩ := h
  have hcontrol : ∀ d : Char, d.toNat < 0x20 → c ≠ d := by
    rintro d hd rfl
    omega
  rw [escapeChar, if_neg (not_or.mpr ⟨hquote, hescape⟩), if_neg (hcontrol _ (by decide)),
    if_neg (hcontrol _ (by decide)), if_neg (hcontrol _ (by decide)),
    if_neg (hcontrol _ (by decide)), if_neg (hcontrol _ (by decide)), if_neg (by omega)]

theorem escape_of_plain {s : Text} (h : ∀ c ∈ s, Plain c) : escape s = s := by
  induction s with
  | nil => rfl
  | cons c s ih =>
    rw [escape, List.flatMap_cons, escapeChar_of_plain (h c (.head _))]
    exact congrArg (c :: ·) (ih fun c hc => h c (.tail _ hc))

theorem plain_of_mem_intText {n : Int} {c : Char} (h : c ∈ intText n) : Plain c := by
  obtain ⟨b, hb, rfl⟩ := List.mem_map.mp h
  have hall : ∀ b : BitVec 8, (UInt8.ofBitVec b = 45 ∨ Decimal.isDigit ⟨b⟩ = true) →
      Plain (Char.ofNat (UInt8.ofBitVec b).toNat) := by decide
  exact hall b.toBitVec (Decimal.mem_intText hb)

end Pieces

end JsonText
