import McpeLauncher.Lib.StrTo

/-!
# The search for a pattern of bytes

A pattern is a text of two-digit bytes and `??`. The search runs backwards through the code of a
library, over indexes of type `size_t`.
-/

namespace McpeLauncher.Patch
open StrTo

/-- `patternRaw` and `patternMask`. -/
abbrev RawPattern := List (UInt8 × UInt8)

/-- The first loop of `patternSearch`, which moves on by two characters whatever `strtoul` took. -/
def parsePattern (bits : Nat) : List UInt8 → RawPattern
  | c :: d :: rest =>
    if c = 32 then parsePattern bits (d :: rest)
    else if c = 63 ∧ d = 63 then (0, 0) :: parsePattern bits rest
    else (UInt8.ofNat (strtoul bits 16 (c :: d :: rest)), 0xff) :: parsePattern bits rest
  | _ => []

/-- The loop over `j`, which ends at the first byte that is different: `none` if it reads a byte
outside the region. -/
def compareAt (bits : Nat) (region : List UInt8) (i : Nat) : RawPattern → Nat → Option Bool
  | [], _ => some true
  | (raw, mask) :: rest, j =>
    match region[(i + j) % 2 ^ bits]? with
    | none => none
    | some b => if raw ≠ b &&& mask then some false else compareAt bits region i rest (j + 1)

/-- The loop over `i`, with the place it returns. -/
def scanDown (bits : Nat) (region : List UInt8) (pattern : RawPattern) : Nat → Option (Option Nat)
  | 0 => some none
  | i + 1 =>
    match compareAt bits region (i + 1) pattern 0 with
    | none => none
    | some true => some (some (i + 1))
    | some false => scanDown bits region pattern i

/-- The code of the library as `get_library_code_region` finds it. -/
structure CodeRegion (bits : Nat) where
  code : List UInt8
  fits : code.length < 2 ^ bits

/-- The difference of the sizes is one of `size_t`. -/
def patternSearch {bits : Nat} (region : CodeRegion bits) (pattern : List UInt8) :
    Option (Option Nat) :=
  let patternRaw := parsePattern bits pattern
  scanDown bits region.code patternRaw
    ((region.code.length + 2 ^ bits - patternRaw.length) % 2 ^ bits)

/-! ## Patterns -/

def HexDigit := { c : UInt8 // isDigit 16 c = true }

/-- A byte in two digits, or a wildcard. -/
inductive Token
  | byte (hi lo : HexDigit)
  | wildcard

namespace Token

def text : Token → List UInt8
  | byte hi lo => [hi.val, lo.val]
  | wildcard => [63, 63]

def Matches : Token → UInt8 → Prop
  | byte hi lo, b => b.toNat = 16 * digitValue hi.val + digitValue lo.val
  | wildcard, _ => True

end Token

/-- Each token with the number of spaces in front of it. -/
def spacedText : List (Nat × Token) → List UInt8
  | [] => []
  | (n, t) :: ts => List.replicate n 32 ++ t.text ++ spacedText ts

/-- A pattern in memory. -/
structure Pattern (bits : Nat) where
  spaced : List (Nat × Token)
  fits : (spacedText spaced).length < 2 ^ bits

namespace Pattern

variable {bits : Nat}

def text (p : Pattern bits) : List UInt8 := spacedText p.spaced

def tokens (p : Pattern bits) : List Token := p.spaced.map Prod.snd

end Pattern

/-- `pattern` is found at the place `i` of the region, byte for byte. -/
def FoundAt {α : Type} (R : α → UInt8 → Prop) (region : List UInt8) (pattern : List α) (i : Nat) :
    Prop :=
  i + pattern.length ≤ region.length ∧
    List.Forall₂ R pattern ((region.drop i).take pattern.length)

/-- `r` is the last place where `M` holds, and there is none if `r` is none. -/
def IsLast (M : Nat → Prop) : Option Nat → Prop
  | some q => M q ∧ ∀ i, M i → i ≤ q
  | none => ∀ i, ¬M i

/-- The search stays inside the region and returns the last place of the tokens. -/
def SearchesRight {bits : Nat} (region : CodeRegion bits) (p : Pattern bits) : Prop :=
  ∃ r, patternSearch region p.text = some r ∧
    IsLast (FoundAt Token.Matches region.code p.tokens) r

/-! ## What is made of a pattern -/

/-- The digits of the bytes that follow without a space. -/
def adjacentDigits : List (Nat × Token) → List UInt8
  | (0, .byte hi lo) :: ts => hi.val :: lo.val :: adjacentDigits ts
  | _ => []

/-- The number that all the digits up to the next space or wildcard make, as far as it fits in an
`unsigned long`. -/
def runValue (bits : Nat) (digits : List UInt8) : Nat :=
  if 2 ^ bits ≤ ofDigits 16 digits then 2 ^ bits - 1 else ofDigits 16 digits

/-- Each byte is the lowest one of the number that begins with it. -/
def readTokens (bits : Nat) : List (Nat × Token) → RawPattern
  | [] => []
  | (_, .wildcard) :: ts => (0, 0) :: readTokens bits ts
  | (_, .byte hi lo) :: ts =>
    (UInt8.ofNat (runValue bits (hi.val :: lo.val :: adjacentDigits ts)), 0xff) ::
      readTokens bits ts

def Masked (p : UInt8 × UInt8) (b : UInt8) : Prop := p.1 = b &&& p.2

/-- The pattern is not longer than the region; its last place is not the first byte, and the
pattern as it is read is found there too, and found nowhere behind. -/
structure ReadAlike {bits : Nat} (region : CodeRegion bits) (p : Pattern bits) : Prop where
  length_le : p.tokens.length ≤ region.code.length
  last : ∀ q, IsLast (FoundAt Token.Matches region.code p.tokens) (some q) →
    1 ≤ q ∧ FoundAt Masked region.code (readTokens bits p.spaced) q
  none_behind : ∀ i, 1 ≤ i → FoundAt Masked region.code (readTokens bits p.spaced) i →
    ∃ k, i ≤ k ∧ FoundAt Token.Matches region.code p.tokens k

section Parse

variable {bits : Nat} {ts : List (Nat × Token)}

/-- The digits that the text begins with. -/
theorem takeWhile_spacedText (ts : List (Nat × Token)) :
    (spacedText ts).takeWhile (isDigit 16) = adjacentDigits ts := by
  induction ts with
  | nil => rfl
  | cons t ts ih =>
    obtain ⟨n, t⟩ := t
    cases n with
    | succ n => exact List.takeWhile_cons_of_neg (by decide)
    | zero =>
      cases t with
      | wildcard => exact List.takeWhile_cons_of_neg (by decide)
      | byte hi lo =>
        change (hi.val :: lo.val :: spacedText ts).takeWhile (isDigit 16) =
          hi.val :: lo.val :: adjacentDigits ts
        rw [List.takeWhile_cons_of_pos hi.property, List.takeWhile_cons_of_pos lo.property, ih]

/-- `strtoul` does not stop behind the two digits of the byte. -/
theorem strtoul_spacedText (hi lo : HexDigit) (ts : List (Nat × Token)) :
    strtoul bits 16 (hi.val :: lo.val :: spacedText ts) =
      runValue bits (hi.val :: lo.val :: adjacentDigits ts) := by
  have hdigits : (hi.val :: lo.val :: spacedText ts).takeWhile (isDigit 16) =
      hi.val :: lo.val :: adjacentDigits ts := takeWhile_spacedText ((0, .byte hi lo) :: ts)
  rw [strtoul, numeral_of_isDigit (by decide) hi.property (dropHexMark_of_isDigit lo.property)]
  simp only [hdigits, runValue, Bool.false_eq_true, if_false]

theorem HexDigit.ne_space (c : HexDigit) : c.val ≠ 32 := fun h => by
  have hc := c.property
  rw [h] at hc
  exact absurd hc (by decide)

theorem HexDigit.ne_question (c : HexDigit) : c.val ≠ 63 := fun h => by
  have hc := c.property
  rw [h] at hc
  exact absurd hc (by decide)

/-- Spaces in front of a token are skipped. -/
theorem parsePattern_spaces (n : Nat) (c d : UInt8) (rest : List UInt8) :
    parsePattern bits (List.replicate n 32 ++ c :: d :: rest) =
      parsePattern bits (c :: d :: rest) := by
  induction n with
  | zero => rfl
  | succ n ih =>
    rw [← ih]
    cases n with
    | zero => exact if_pos rfl
    | succ n => exact if_pos rfl

theorem parsePattern_spacedText (ts : List (Nat × Token)) :
    parsePattern bits (spacedText ts) = readTokens bits ts := by
  induction ts with
  | nil => rfl
  | cons t ts ih =>
    obtain ⟨n, t⟩ := t
    cases t with
    | wildcard =>
      rw [spacedText, List.append_assoc]
      refine (parsePattern_spaces n 63 63 (spacedText ts)).trans ?_
      rw [parsePattern, if_neg (by decide), if_pos ⟨rfl, rfl⟩, ih, readTokens]
    | byte hi lo =>
      rw [spacedText, List.append_assoc]
      refine (parsePattern_spaces n hi.val lo.val (spacedText ts)).trans ?_
      rw [parsePattern, if_neg hi.ne_space, if_neg fun h => hi.ne_question h.1, ih,
        strtoul_spacedText, readTokens]

theorem readTokens_length (bits : Nat) (ts : List (Nat × Token)) :
    (readTokens bits ts).length = ts.length := by
  induction ts with
  | nil => rfl
  | cons t ts ih =>
    obtain ⟨n, t⟩ := t
    cases t <;> exact congrArg (· + 1) ih

/-- A token has two characters. -/
theorem length_le_spacedText (ts : List (Nat × Token)) : ts.length ≤ (spacedText ts).length := by
  induction ts with
  | nil => exact le_rfl
  | cons t ts ih =>
    obtain ⟨n, t⟩ := t
    cases t <;>
      simp only [spacedText, Token.text, List.length_append, List.length_cons, List.length_nil] <;>
      omega

end Parse

section Search

variable {bits i j : Nat} {code : List UInt8} {pattern : RawPattern} {M N : Nat → Prop}

theorem IsLast.unique {r r' : Option Nat} (h : IsLast M r) (h' : IsLast M r') : r = r' := by
  cases r with
  | none =>
    cases r' with
    | none => rfl
    | some q => exact absurd h'.1 (h q)
  | some q =>
    cases r' with
    | none => exact absurd h.1 (h' q)
    | some q' => exact congrArg some (Nat.le_antisymm (h'.2 q h.1) (h.2 q' h'.1))

theorem IsLast.congr {r : Option Nat} (h : IsLast M r) (hiff : ∀ i, M i ↔ N i) : IsLast N r :=
  funext (fun i => propext (hiff i)) ▸ h

/-- A bounded set of places has a last one. -/
theorem exists_isLast {n : Nat} (hM : ∀ i, M i → i ≤ n) : ∃ r, IsLast M r := by
  classical
  by_cases h : ∃ i, M i
  · obtain ⟨i, hi⟩ := h
    refine ⟨some (Nat.findGreatest M n), Nat.findGreatest_spec (hM i hi) hi, fun k hk => ?_⟩
    exact Nat.le_findGreatest (hM k hk) hk
  · exact ⟨none, fun i hi => h ⟨i, hi⟩⟩

theorem FoundAt.le {α : Type} {R : α → UInt8 → Prop} {pattern : List α}
    (h : FoundAt R code pattern i) : i ≤ code.length := Nat.le_of_add_right_le h.1

/-- Where the pattern fits, the comparison stays inside and finds out whether the bytes match. -/
theorem compareAt_spec (hcode : code.length < 2 ^ bits) (h : i + j + pattern.length ≤ code.length) :
    ∃ b, compareAt bits code i pattern j = some b ∧
      (b = true ↔ List.Forall₂ Masked pattern ((code.drop (i + j)).take pattern.length)) := by
  induction pattern generalizing j with
  | nil => exact ⟨true, rfl, by simp⟩
  | cons p pattern ih =>
    obtain ⟨raw, mask⟩ := p
    simp only [List.length_cons] at h
    have hlt : i + j < code.length := by omega
    have hdrop : code.drop (i + j) = code[i + j] :: code.drop (i + (j + 1)) :=
      List.drop_eq_getElem_cons hlt
    rw [compareAt, Nat.mod_eq_of_lt (by omega), List.getElem?_eq_getElem hlt, hdrop,
      List.length_cons, List.take_succ_cons, List.forall₂_cons]
    by_cases hraw : raw = code[i + j] &&& mask
    · obtain ⟨b, hb, hiff⟩ := ih (j := j + 1) (by omega)
      refine ⟨b, by simpa [← hraw] using hb, ?_⟩
      rw [hiff]
      exact (and_iff_right hraw).symm
    · exact ⟨false, if_pos hraw, iff_of_false (by decide) fun h => hraw h.1⟩

/-- The scan finds the last place above the first byte. -/
theorem scanDown_spec (hcode : code.length < 2 ^ bits) (h : i + pattern.length ≤ code.length) :
    ∃ r, scanDown bits code pattern i = some r ∧
      IsLast (fun k => (1 ≤ k ∧ k ≤ i) ∧ FoundAt Masked code pattern k) r := by
  induction i with
  | zero => exact ⟨none, rfl, fun k hk => absurd hk.1 (by omega)⟩
  | succ i ih =>
    obtain ⟨b, hb, hiff⟩ := compareAt_spec (j := 0) hcode h
    have hfound : b = true ↔ FoundAt Masked code pattern (i + 1) :=
      hiff.trans (and_iff_right h).symm
    rw [scanDown, hb]
    cases b with
    | true => exact ⟨_, rfl, ⟨⟨by omega, le_rfl⟩, hfound.mp rfl⟩, fun k hk => hk.1.2⟩
    | false =>
      obtain ⟨r, hr, hlast⟩ := ih (by omega)
      refine ⟨r, hr, hlast.congr fun k => and_congr_left fun hk => ?_⟩
      constructor
      · omega
      · intro hle
        have hne : k ≠ i + 1 := fun heq => absurd (hfound.mpr (heq ▸ hk)) (by decide)
        omega

end Search

section Result

variable {bits : Nat} {region : CodeRegion bits} {p p' : Pattern bits}

theorem Pattern.readTokens_length (p : Pattern bits) :
    (readTokens bits p.spaced).length = p.tokens.length := by
  rw [Patch.readTokens_length, Pattern.tokens, List.length_map]

theorem Pattern.tokens_lt (p : Pattern bits) : p.tokens.length < 2 ^ bits := by
  rw [Pattern.tokens, List.length_map]
  exact (length_le_spacedText p.spaced).trans_lt p.fits

/-- A pattern that fits in the region is searched for as it is read, without the first byte. -/
theorem patternSearch_of_le (h : p.tokens.length ≤ region.code.length) :
    ∃ r, patternSearch region p.text = some r ∧
      IsLast (fun k => 1 ≤ k ∧ FoundAt Masked region.code (readTokens bits p.spaced) k) r := by
  have hfits := region.fits
  have hlen := p.readTokens_length
  have hstart : (region.code.length + 2 ^ bits - p.tokens.length) % 2 ^ bits =
      region.code.length - p.tokens.length := by
    rw [show region.code.length + 2 ^ bits - p.tokens.length =
      region.code.length - p.tokens.length + 2 ^ bits by omega, Nat.add_mod_right,
      Nat.mod_eq_of_lt (by omega)]
  have hroom : region.code.length - p.tokens.length + (readTokens bits p.spaced).length ≤
      region.code.length := by omega
  obtain ⟨r, hr, hlast⟩ := scanDown_spec hfits hroom
  refine ⟨r, ?_, hlast.congr fun k => and_congr_left fun hk => ?_⟩
  · rw [patternSearch, Pattern.text, parsePattern_spacedText]
    simpa only [hlen, hstart] using hr
  · have := hk.1
    exact ⟨And.left, fun hk => ⟨hk, by omega⟩⟩

/-- A longer pattern makes the search begin in front of the region. -/
theorem patternSearch_of_lt (h : region.code.length < p.tokens.length) :
    patternSearch region p.text = none := by
  have hlt := p.tokens_lt
  have hlen := p.readTokens_length
  have hstart : (region.code.length + 2 ^ bits - p.tokens.length) % 2 ^ bits =
      region.code.length + 2 ^ bits - p.tokens.length := Nat.mod_eq_of_lt (by omega)
  simp only [patternSearch, Pattern.text, parsePattern_spacedText, hlen, hstart]
  obtain ⟨start, hsucc⟩ := Nat.exists_eq_succ_of_ne_zero
    (show region.code.length + 2 ^ bits - p.tokens.length ≠ 0 by omega)
  have hmod : (start + 1) % 2 ^ bits = start + 1 := Nat.mod_eq_of_lt (by omega)
  cases hread : readTokens bits p.spaced with
  | nil =>
    rw [hread, List.length_nil] at hlen
    omega
  | cons q pattern =>
    rw [hsucc, scanDown, compareAt, Nat.add_zero, hmod, List.getElem?_eq_none (by omega)]

/-- A pattern that is read alike is found where it was meant to be. -/
theorem searchesRight_of_readAlike (h : ReadAlike region p) : SearchesRight region p := by
  obtain ⟨r, hr, hlast⟩ := patternSearch_of_le h.length_le
  refine ⟨r, hr, ?_⟩
  obtain ⟨r', hr'⟩ := exists_isLast (M := FoundAt Token.Matches region.code p.tokens)
    fun i hi => hi.le
  cases r' with
  | none =>
    cases r with
    | none => exact hr'
    | some q =>
      obtain ⟨k, -, hk⟩ := h.none_behind q hlast.1.1 hlast.1.2
      exact absurd hk (hr' k)
  | some q' =>
    have hq' := h.last q' hr'
    cases r with
    | none => exact absurd hq' (hlast q')
    | some q =>
      obtain ⟨k, hle, hk⟩ := h.none_behind q hlast.1.1 hlast.1.2
      have hq : q = q' := Nat.le_antisymm (hle.trans (hr'.2 k hk)) (hlast.2 q' hq')
      rw [hq]
      exact hr'

theorem readAlike_of_searchesRight (h : SearchesRight region p) : ReadAlike region p := by
  obtain ⟨r, hr, hright⟩ := h
  have hle : p.tokens.length ≤ region.code.length := by
    by_contra hlt
    rw [patternSearch_of_lt (by omega)] at hr
    cases hr
  obtain ⟨r', hr', hlast⟩ := patternSearch_of_le hle
  cases hr.symm.trans hr'
  refine ⟨hle, fun q hq => ?_, fun i hi hfound => ?_⟩
  · cases hright.unique hq
    exact hlast.1
  · cases r with
    | none => exact absurd ⟨hi, hfound⟩ (hlast i)
    | some q => exact ⟨q, hlast.2 i ⟨hi, hfound⟩, hright.1⟩

/-- The search is right if and only if the pattern is read alike. Then other spaces between the
tokens make no difference exactly if the pattern is read alike with them, too. -/
theorem searchesRight_iff (region : CodeRegion bits) (p : Pattern bits) :
    (SearchesRight region p ↔ ReadAlike region p) ∧
      ∀ p' : Pattern bits, p'.tokens = p.tokens → ReadAlike region p →
        (patternSearch region p'.text = patternSearch region p.text ↔ ReadAlike region p') := by
  refine ⟨⟨readAlike_of_searchesRight, searchesRight_of_readAlike⟩, fun p' htokens hp => ?_⟩
  obtain ⟨r, hr, hright⟩ := searchesRight_of_readAlike hp
  constructor
  · intro heq
    exact readAlike_of_searchesRight ⟨r, heq.trans hr, htokens ▸ hright⟩
  · intro hp'
    obtain ⟨r', hr', hright'⟩ := searchesRight_of_readAlike hp'
    rw [htokens] at hright'
    rw [hr, hr', hright.unique hright']

end Result

/-! ## Bytes that are kept apart -/

section Separate

variable {bits : Nat} {ts : List (Nat × Token)} {code : List UInt8} {i : Nat}

/-- No byte follows another one without a space. -/
def Separate : List (Nat × Token) → Prop
  | [] => True
  | (_, .wildcard) :: ts => Separate ts
  | (_, .byte _ _) :: ts => adjacentDigits ts = [] ∧ Separate ts

theorem ofDigits_byte (hi lo : HexDigit) :
    ofDigits 16 [hi.val, lo.val] = 16 * digitValue hi.val + digitValue lo.val := by
  simp only [ofDigits, List.foldl_cons, List.foldl_nil]
  omega

/-- Read on its own, a byte is what its digits say. -/
theorem masked_runValue_iff (hbits : 8 ≤ bits) (hi lo : HexDigit) (b : UInt8) :
    Masked (UInt8.ofNat (runValue bits [hi.val, lo.val]), 0xff) b ↔
      (Token.byte hi lo).Matches b := by
  have hhi : digitValue hi.val < 16 := of_decide_eq_true hi.property
  have hlo : digitValue lo.val < 16 := of_decide_eq_true lo.property
  have hpow : 2 ^ 8 ≤ 2 ^ bits := Nat.pow_le_pow_right (by decide) hbits
  have hb : b &&& 0xff = b := UInt8.and_neg_one
  rw [Masked, hb, runValue, ofDigits_byte, if_neg (by omega), Token.Matches, ← UInt8.toNat_inj,
    UInt8.toNat_ofNat', Nat.mod_eq_of_lt (by omega)]
  exact eq_comm

theorem forall₂_readTokens_iff (hbits : 8 ≤ bits) (h : Separate ts) (bytes : List UInt8) :
    List.Forall₂ Masked (readTokens bits ts) bytes ↔
      List.Forall₂ Token.Matches (ts.map Prod.snd) bytes := by
  induction ts generalizing bytes with
  | nil => simp [readTokens]
  | cons t ts ih =>
    obtain ⟨n, t⟩ := t
    cases bytes with
    | nil => cases t <;> simp [readTokens]
    | cons b bytes =>
      cases t with
      | wildcard =>
        rw [readTokens, List.map_cons, List.forall₂_cons, List.forall₂_cons, ih h]
        exact and_congr_left fun _ => iff_of_true (UInt8.and_zero (a := b)).symm trivial
      | byte hi lo =>
        rw [readTokens, List.map_cons, List.forall₂_cons, List.forall₂_cons, ih h.2, h.1,
          masked_runValue_iff hbits]

/-- With spaces between its bytes a pattern is read alike unless it is longer than the region or
has its last place at the first byte. -/
theorem readAlike_iff_of_separate {region : CodeRegion bits} {p : Pattern bits} (hbits : 8 ≤ bits)
    (h : Separate p.spaced) :
    ReadAlike region p ↔ p.tokens.length ≤ region.code.length ∧
      ¬IsLast (FoundAt Token.Matches region.code p.tokens) (some 0) := by
  have hfound (i : Nat) : FoundAt Masked region.code (readTokens bits p.spaced) i ↔
      FoundAt Token.Matches region.code p.tokens i := by
    rw [FoundAt, FoundAt, forall₂_readTokens_iff hbits h, p.readTokens_length]
    rfl
  constructor
  · intro hp
    exact ⟨hp.length_le, fun hlast => absurd (hp.last 0 hlast).1 (by decide)⟩
  · rintro ⟨hle, hfirst⟩
    refine ⟨hle, fun q hq => ⟨?_, (hfound q).mpr hq.1⟩, fun i _ hi => ⟨i, le_rfl, (hfound i).mp hi⟩⟩
    by_contra hzero
    obtain rfl : q = 0 := by omega
    exact hfirst hq

end Separate

def hexDigit (c : UInt8) (h : isDigit 16 c = true) : HexDigit := ⟨c, h⟩

/-- `90`. -/
def nopPattern : Pattern 64 :=
  ⟨[(0, .byte (hexDigit 57 rfl) (hexDigit 48 rfl))], by decide⟩

/-- `F30F`, the bytes F3 and 0F without a space. -/
def sseText : Pattern 64 :=
  ⟨[(0, .byte (hexDigit 70 rfl) (hexDigit 51 rfl)), (0, .byte (hexDigit 48 rfl) (hexDigit 70 rfl))],
    by decide⟩

def nopCode : CodeRegion 64 := ⟨[0x90], by decide⟩

def sseCode : CodeRegion 64 := ⟨[0x90, 0xf3, 0x0f], by decide⟩

/-- A pattern at the first byte is not found, two bytes without a space are taken for others, and
in a region that is shorter than the pattern the search reads in front of it. -/
theorem not_searchesRight_nopPattern :
    ¬SearchesRight nopCode nopPattern ∧ ¬SearchesRight sseCode sseText ∧
      patternSearch nopCode sseText.text = none := by
  refine ⟨?_, ?_, by decide +kernel⟩
  · rintro ⟨r, hr, hlast⟩
    have hnull : patternSearch nopCode nopPattern.text = some none := by decide +kernel
    cases hr.symm.trans hnull
    exact hlast 0 ⟨by decide, .cons rfl .nil⟩
  · rintro ⟨r, hr, hlast⟩
    have hnull : patternSearch sseCode sseText.text = some none := by decide +kernel
    cases hr.symm.trans hnull
    exact hlast 1 ⟨by decide, .cons rfl (.cons rfl .nil)⟩

end McpeLauncher.Patch
