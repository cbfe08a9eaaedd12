import McpeLauncher.Lib.JsonText
import McpeLauncher.Lib.Utf8

/-!
# The quotes of a JSON text

Whether a byte of a JSON text is within a string depends on the quotes and backslashes in front of it.
Behind a string of a JSON text there is no word and no other string (`tidy_of_valid`).
-/

namespace JsonText

/-- Where a scan of a text is, with regard to strings. -/
inductive Lex
  | outside
  | inside
  | escaped
  deriving DecidableEq

namespace Lex

def next : Lex → UInt8 → Lex
  | .outside, c => if c = 34 then .inside else .outside
  | .inside, c => if c = 34 then .outside else if c = 92 then .escaped else .inside
  | .escaped, _ => .inside

def run (s : Lex) (p : List UInt8) : Lex := p.foldl next s

@[simp] theorem run_nil (s : Lex) : s.run [] = s := rfl

@[simp] theorem run_cons (s : Lex) (c : UInt8) (p : List UInt8) :
    s.run (c :: p) = (s.next c).run p := rfl

theorem run_append (s : Lex) (p q : List UInt8) : s.run (p ++ q) = (s.run p).run q :=
  List.foldl_append

end Lex

/-- A letter, a digit or an underscore. -/
def isWordByte (c : UInt8) : Bool :=
  97 ≤ c && c ≤ 122 || 65 ≤ c && c ≤ 90 || 48 ≤ c && c ≤ 57 || c == 95

/-- A text that goes on neither with a word nor with a string. -/
def Apart (p : List UInt8) : Prop := ∀ c ∈ p.head?, c ≠ 34 ∧ isWordByte c = false

/-- Each string of the text is apart from what is behind it. -/
def Tidy : Lex → List UInt8 → Prop
  | _, [] => True
  | s, c :: p => (s = .inside → c = 34 → Apart p) ∧ Tidy (s.next c) p

/-- The bytes of a JSON text, with blanks around its value. -/
def Valid (payload : List UInt8) : Prop :=
  ∃ v w t w', Blank w ∧ Denotes (.value v) t ∧ Blank w' ∧ payload = Utf8.encode (w ++ t ++ w')

theorem apart_nil : Apart [] := by
  rintro c ⟨⟩

theorem apart_cons {c : UInt8} (hquote : c ≠ 34) (hword : isWordByte c = false) (p : List UInt8) :
    Apart (c :: p) := by
  rintro d ⟨⟩
  exact ⟨hquote, hword⟩

/-- What is behind the quote that ends a string. -/
theorem Tidy.apart {s : Lex} {pre post : List UInt8} (h : Tidy s (pre ++ 34 :: post))
    (hs : s.run pre = .inside) : Apart post := by
  induction pre generalizing s with
  | nil => exact h.1 hs rfl
  | cons c pre ih => exact ih h.2 hs

/-! ## The texts of the grammar are tidy -/

section Pieces

variable {c : Char} {t r : Text} {p : List UInt8}

theorem not_mem_encodeChar {b : UInt8} (hascii : Utf8.isAscii b = true) (hc : c.toNat ≠ b.toNat) :
    b ∉ String.utf8EncodeChar c :=
  fun hb => hc (Utf8.toNat_of_mem_encodeChar hb hascii)

theorem tidy_outside (h : ∀ b ∈ p, b ≠ 34) {q : List UInt8} (hq : Tidy .outside q) :
    Tidy .outside (p ++ q) := by
  induction p with
  | nil => exact hq
  | cons b p ih =>
    have hnext : Lex.outside.next b = .outside := if_neg (h b (.head _))
    refine ⟨fun hs => absurd hs (by decide), ?_⟩
    rw [hnext]
    exact ih fun b hb => h b (.tail _ hb)

theorem tidy_inside (h : ∀ b ∈ p, b ≠ 34 ∧ b ≠ 92) {q : List UInt8} (hq : Tidy .inside q) :
    Tidy .inside (p ++ q) := by
  induction p with
  | nil => exact hq
  | cons b p ih =>
    obtain ⟨hquote, hescape⟩ := h b (.head _)
    have hnext : Lex.inside.next b = .inside := (if_neg hquote).trans (if_neg hescape)
    refine ⟨fun _ heq => absurd heq hquote, ?_⟩
    rw [hnext]
    exact ih fun b hb => h b (.tail _ hb)

theorem mem_encode {cs : Text} {b : UInt8} (hb : b ∈ Utf8.encode cs) :
    ∃ c ∈ cs, b ∈ String.utf8EncodeChar c :=
  List.mem_flatMap.mp hb

/-- Characters that are no quotes leave a scan outside of strings. -/
theorem tidy_encode (h : ∀ c ∈ t, c ≠ '"') {q : List UInt8} (hq : Tidy .outside q) :
    Tidy .outside (Utf8.encode t ++ q) := by
  refine tidy_outside (fun b hb heq => ?_) hq
  obtain ⟨c, hc, hb⟩ := mem_encode hb
  subst heq
  exact not_mem_encodeChar (by decide) (fun hn => h c hc (Char.toNat_inj.mp hn)) hb

theorem not_plain_bytes (hquote : c ≠ '"') (hescape : c ≠ '\\') :
    ∀ b ∈ String.utf8EncodeChar c, b ≠ 34 ∧ b ≠ 92 := by
  intro b hb
  constructor
  · rintro rfl
    exact not_mem_encodeChar (by decide) (fun hn => hquote (Char.toNat_inj.mp hn)) hb
  · rintro rfl
    exact not_mem_encodeChar (by decide) (fun hn => hescape (Char.toNat_inj.mp hn)) hb

theorem hexDigit_plain {n : Nat} (h : hexDigit c = some n) : c ≠ '"' ∧ c ≠ '\\' := by
  constructor
  · rintro rfl
    cases h.symm.trans (rfl : hexDigit '"' = none)
  · rintro rfl
    cases h.symm.trans (rfl : hexDigit '\\' = none)

theorem hex4_plain {ds : Text} {n : Nat} (h : hex4 ds = some (n, [])) :
    ∀ c ∈ ds, c ≠ '"' ∧ c ≠ '\\' := by
  match ds, h with
  | a :: b :: c :: d :: s, h =>
    simp only [hex4, Option.bind_eq_bind, Option.bind_eq_some_iff] at h
    obtain ⟨a', ha, b', hb, c', hc, d', hd, heq⟩ := h
    cases heq
    intro x hx
    simp only [List.mem_cons, List.not_mem_nil, or_false] at hx
    obtain rfl | rfl | rfl | rfl := hx
    · exact hexDigit_plain ha
    · exact hexDigit_plain hb
    · exact hexDigit_plain hc
    · exact hexDigit_plain hd

/-- The character behind a backslash is passed over, whatever it is. -/
theorem tidy_escape {e : Char} (he : e.toNat < 128) {q : List UInt8} (hq : Tidy .inside q) :
    Tidy .inside (Utf8.encode ['\\', e] ++ q) := by
  have hbytes : Utf8.encode ['\\', e] = [92, UInt8.ofNat e.toNat] := by
    rw [Utf8.encode_cons, Utf8.encode_cons, Utf8.encode_nil, Utf8.encodeChar_of_lt he]
    rfl
  rw [hbytes]
  refine ⟨fun _ heq => absurd heq (by decide), ?_⟩
  exact ⟨fun hs => absurd hs (by decide), hq⟩

theorem tidy_unit {ds : Text} {n : Nat} (h : hex4 ds = some (n, [])) {q : List UInt8}
    (hq : Tidy .inside q) : Tidy .inside (Utf8.encode ('\\' :: 'u' :: ds) ++ q) := by
  have hsplit : '\\' :: 'u' :: ds = ['\\', 'u'] ++ ds := rfl
  rw [hsplit, Utf8.encode_append, List.append_assoc]
  refine tidy_escape (by decide) (tidy_inside (fun b hb => ?_) hq)
  obtain ⟨c, hc, hb⟩ := mem_encode hb
  exact not_plain_bytes (hex4_plain h c hc).1 (hex4_plain h c hc).2 b hb

theorem shortEscape_lt {e : Char} (h : shortEscape e = some c) : e.toNat < 128 := by
  by_contra hle
  have hne (d : Char) (hd : d.toNat < 128) : e ≠ d := fun heq => hle (heq ▸ hd)
  have hself : ¬(e = '"' ∨ e = '\\' ∨ e = '/') := by
    rintro (heq | heq | heq) <;> exact hne _ (by decide) heq
  rw [shortEscape, if_neg hself, if_neg (hne _ (by decide)), if_neg (hne _ (by decide)),
    if_neg (hne _ (by decide)), if_neg (hne _ (by decide)), if_neg (hne _ (by decide))] at h
  cases h

theorem CharText.tidy (h : CharText c t) {q : List UInt8} (hq : Tidy .inside q) :
    Tidy .inside (Utf8.encode t ++ q) := by
  cases h with
  | plain _ hquote hescape =>
    rw [Utf8.encode_cons, Utf8.encode_nil, List.append_nil]
    exact tidy_inside (not_plain_bytes hquote hescape) hq
  | short he => exact tidy_escape (shortEscape_lt he) hq
  | unit hn _ _ => exact tidy_unit hn hq
  | pair hn hn' _ _ =>
    rw [Utf8.encode_append, List.append_assoc]
    exact tidy_unit hn (tidy_unit hn' hq)

theorem StringText.tidy {s : Text} (h : StringText s t) {q : List UInt8} (hapart : Apart q)
    (hq : Tidy .outside q) : Tidy .inside (Utf8.encode t ++ q) := by
  induction h with
  | nil => exact ⟨fun _ _ => hapart, hq⟩
  | cons hc _ ih =>
    rw [Utf8.encode_append, List.append_assoc]
    exact hc.tidy ih

end Pieces

section Values

variable {v : Value} {t w : Text} {q : List UInt8}

theorem Blank.ne_quote (h : Blank w) : ∀ c ∈ w, c ≠ '"' := by
  rintro c hc rfl
  cases h _ hc

theorem Digits.ne_quote (h : Digits t) : ∀ c ∈ t, c ≠ '"' := by
  rintro c hc rfl
  cases h.2 _ hc

theorem NumberText.ne_quote {m e : Int} (h : NumberText m e t) : ∀ c ∈ t, c ≠ '"' := by
  obtain ⟨hsign, -, hint, hfraction, hexponent⟩ := h
  have signs {negative : Bool} {sign : Text} (h : SignText negative sign) :
      ∀ c ∈ sign, c ≠ '"' := by
    cases h <;> simp
  have hpoint {fraction point : Text} (h : FractionText fraction point) :
      ∀ c ∈ point, c ≠ '"' := by
    cases h with
    | absent => exact List.forall_mem_nil _
    | present hds => exact List.forall_mem_cons.mpr ⟨by decide, hds.ne_quote⟩
  have hexp {exponent : Int} {exp : Text} (h : ExponentText exponent exp) :
      ∀ c ∈ exp, c ≠ '"' := by
    cases h with
    | absent => exact List.forall_mem_nil _
    | present he hsign hds =>
      refine List.forall_mem_append.mpr ⟨List.forall_mem_cons.mpr ⟨?_, signs hsign⟩, hds.ne_quote⟩
      obtain rfl | rfl := he <;> decide
  exact List.forall_mem_append.mpr ⟨List.forall_mem_append.mpr ⟨List.forall_mem_append.mpr
    ⟨signs hsign, hint.1.ne_quote⟩, hpoint hfraction⟩, hexp hexponent⟩

/-- Blanks, and then a byte that begins no word and no string. -/
theorem apart_blanks (hw : Blank w) (hq : Apart q) : Apart (Utf8.encode w ++ q) := by
  cases w with
  | nil => exact hq
  | cons c w =>
    have hc := hw c (.head _)
    simp only [isBlank, Bool.or_eq_true, beq_iff_eq] at hc
    obtain ((rfl | rfl) | rfl) | rfl := hc <;> exact apart_cons (by decide) (by decide) _

/-- A member's name, its colon and what is around it. -/
theorem tidy_name {name n w₁ w₂ : Text} (hw : Blank w) (hn : StringText name n) (hw₁ : Blank w₁)
    (hw₂ : Blank w₂) (hq : Tidy .outside q) :
    Tidy .outside (Utf8.encode (w ++ '"' :: n ++ w₁ ++ ':' :: w₂) ++ q) := by
  have hcolon : Tidy .outside (Utf8.encode (':' :: w₂) ++ q) :=
    tidy_encode (List.forall_mem_cons.mpr ⟨by decide, hw₂.ne_quote⟩) hq
  have hapart : Apart (Utf8.encode (':' :: w₂) ++ q) := apart_cons (by decide) (by decide) _
  have hafter := hn.tidy (apart_blanks hw₁ hapart) (tidy_encode hw₁.ne_quote hcolon)
  have hquote : Tidy .outside (Utf8.encode ['"'] ++ (Utf8.encode n ++ (Utf8.encode w₁ ++
      (Utf8.encode (':' :: w₂) ++ q)))) :=
    ⟨fun hs => absurd hs (by decide), hafter⟩
  have hall := tidy_encode hw.ne_quote hquote
  simpa using hall

/-- Behind every phrase a scan goes on outside of strings. -/
theorem Denotes.tidy {p : Phrase} (h : Denotes p t) (hapart : Apart q) (hq : Tidy .outside q) :
    Tidy .outside (Utf8.encode t ++ q) := by
  induction h generalizing q with
  | null | trueText | falseText => exact tidy_encode (by simp) hq
  | number h => exact tidy_encode h.ne_quote hq
  | string h => exact ⟨fun hs => absurd hs (by decide), h.tidy hapart hq⟩
  | emptyArray hw | emptyObject hw =>
    refine tidy_encode (List.forall_mem_append.mpr ⟨List.forall_mem_cons.mpr ⟨by decide, ?_⟩, ?_⟩) hq
    · exact hw.ne_quote
    · simp
  | @array vs t _ ih =>
    have hclose : Tidy .outside (Utf8.encode [']'] ++ q) := tidy_encode (by simp) hq
    have hbehind : Apart (Utf8.encode [']'] ++ q) := apart_cons (by decide) (by decide) _
    have hitems := ih hbehind hclose
    have hopen : Tidy .outside (Utf8.encode ['['] ++ _) := tidy_encode (by simp) hitems
    simpa using hopen
  | @object ms t _ ih =>
    have hclose : Tidy .outside (Utf8.encode ['}'] ++ q) := tidy_encode (by simp) hq
    have hbehind : Apart (Utf8.encode ['}'] ++ q) := apart_cons (by decide) (by decide) _
    have hmembers := ih hbehind hclose
    have hopen : Tidy .outside (Utf8.encode ['{'] ++ _) := tidy_encode (by simp) hmembers
    simpa using hopen
  | item hw _ hw' ih =>
    have hvalue := ih (apart_blanks hw' hapart) (tidy_encode hw'.ne_quote hq)
    have hall := tidy_encode hw.ne_quote hvalue
    simpa using hall
  | @itemCons v vs t ts w w' hw _ hw' _ ih ihs =>
    have hcomma : Tidy .outside (Utf8.encode [','] ++ (Utf8.encode ts ++ q)) :=
      tidy_encode (by simp) (ihs hapart hq)
    have happart : Apart (Utf8.encode [','] ++ (Utf8.encode ts ++ q)) :=
      apart_cons (by decide) (by decide) _
    have hvalue := ih (apart_blanks hw' happart) (tidy_encode hw'.ne_quote hcomma)
    have hall := tidy_encode hw.ne_quote hvalue
    simpa using hall
  | member hw hn hw₁ hw₂ _ hw' ih =>
    have hvalue := ih (apart_blanks hw' hapart) (tidy_encode hw'.ne_quote hq)
    have hall := tidy_name hw hn hw₁ hw₂ hvalue
    simpa using hall
  | @memberCons name v ms n t ts w w₁ w₂ w' hw hn hw₁ hw₂ _ hw' _ ih ihs =>
    have hcomma : Tidy .outside (Utf8.encode [','] ++ (Utf8.encode ts ++ q)) :=
      tidy_encode (by simp) (ihs hapart hq)
    have happart : Apart (Utf8.encode [','] ++ (Utf8.encode ts ++ q)) :=
      apart_cons (by decide) (by decide) _
    have hvalue := ih (apart_blanks hw' happart) (tidy_encode hw'.ne_quote hcomma)
    have hall := tidy_name hw hn hw₁ hw₂ hvalue
    simpa using hall

/-- Each string of a JSON text is apart from what is behind it. -/
theorem tidy_of_valid (h : Valid q) : Tidy .outside q := by
  obtain ⟨v, w, t, w', hw, ht, hw', rfl⟩ := h
  have hend : Tidy .outside (Utf8.encode w' ++ []) := tidy_encode hw'.ne_quote trivial
  have hvalue := ht.tidy (apart_blanks hw' apart_nil) hend
  have hall := tidy_encode hw.ne_quote hvalue
  simpa using hall

end Values

end JsonText
