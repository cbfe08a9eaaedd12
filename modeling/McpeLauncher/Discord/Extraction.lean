import McpeLauncher.Discord.ActivityJson
import McpeLauncher.Lib.JsonLex

/-!
# The texts taken from a payload

`extractMessage` and `extractJsonString` scan the bytes of a payload for a field. They drop the
backslashes of a string, and they find a field wherever its name is with its quotes, as it is also
behind an escaped quote at the end of another name.
-/

namespace McpeLauncher.Discord

open JsonText (Lex Valid isWordByte)

/-! ## The scans -/

/-- A string behind its first quote. `esc` is set behind a backslash. -/
def readString (esc : Bool) : Bytes → Bytes
  | [] => []
  | c :: p =>
    if esc then c :: readString false p
    else if c = 92 then readString true p
    else if c = 34 then []
    else c :: readString false p

/-- The payload from the first place of `key` on. -/
def find (key : Bytes) : Bytes → Option Bytes
  | [] => if key = [] then some [] else none
  | c :: p => if key.isPrefixOf (c :: p) then some (c :: p) else find key p

def messageKey : Bytes := lit "\"message\":\""

def extractMessage (payload : Bytes) : Bytes :=
  match find messageKey payload with
  | none => []
  | some p => readString false (p.drop messageKey.length)

def isBlank (c : UInt8) : Bool := c == 32 || c == 9

/-- The string behind a key, a colon and what `blank` passes over. -/
def stringBehind (blank : UInt8 → Bool) (key p : Bytes) : Option Bytes :=
  let j := (p.drop key.length).dropWhile blank
  if j.head? = some 58 then
    let j := j.tail.dropWhile blank
    if j.head? = some 34 then some (readString false j.tail) else none
  else none

/-- The loop goes over the places of `key`, up to one that has a string behind it. -/
def extractJsonString (payload key : Bytes) : Bytes :=
  match payload with
  | [] => []
  | c :: p =>
    if key.isPrefixOf (c :: p) then
      match stringBehind isBlank key (c :: p) with
      | some out => out
      | none => extractJsonString p key
    else extractJsonString p key

/-! ## The first place of a payload -/

section FirstAt
variable {read : Bytes → Option Bytes} {p : Bytes} {v : Bytes}

/-- What `read` makes of the first place at which it makes something. -/
def firstAt (read : Bytes → Option Bytes) : Bytes → Option Bytes
  | [] => none
  | c :: p => (read (c :: p)).or (firstAt read p)

/-- `read` makes `v` of what is behind `pre`. -/
def ReadsAt (read : Bytes → Option Bytes) (p pre v : Bytes) : Prop :=
  ∃ post, p = pre ++ post ∧ read post = some v

theorem ReadsAt.cons {c : UInt8} {pre : Bytes} (h : ReadsAt read p pre v) :
    ReadsAt read (c :: p) (c :: pre) v := by
  obtain ⟨post, rfl, hread⟩ := h
  exact ⟨post, rfl, hread⟩

theorem readsAt_cons_iff {c : UInt8} {pre : Bytes} : ReadsAt read (c :: p) pre v ↔
    (pre = [] ∧ read (c :: p) = some v) ∨ ∃ pre', pre = c :: pre' ∧ ReadsAt read p pre' v := by
  constructor
  · rintro ⟨post, heq, hread⟩
    cases pre with
    | nil =>
      obtain rfl : c :: p = post := heq
      exact .inl ⟨rfl, hread⟩
    | cons d pre =>
      obtain ⟨rfl, rfl⟩ := List.cons_eq_cons.mp heq
      exact .inr ⟨pre, rfl, post, rfl, hread⟩
  · rintro (⟨rfl, hread⟩ | ⟨pre', rfl, hread⟩)
    · exact ⟨c :: p, rfl, hread⟩
    · exact hread.cons

theorem firstAt_eq_none_iff (hnil : read [] = none) :
    firstAt read p = none ↔ ∀ pre v, ¬ReadsAt read p pre v := by
  induction p with
  | nil =>
    refine ⟨fun _ pre v h => ?_, fun _ => rfl⟩
    obtain ⟨post, heq, hread⟩ := h
    obtain ⟨-, rfl⟩ := List.append_eq_nil_iff.mp heq.symm
    cases hnil.symm.trans hread
  | cons c p ih =>
    rw [firstAt, Option.or_eq_none_iff, ih]
    constructor
    · rintro ⟨hhere, hrest⟩ pre v h
      obtain ⟨-, hread⟩ | ⟨pre', -, hread⟩ := readsAt_cons_iff.mp h
      · cases hhere.symm.trans hread
      · exact hrest pre' v hread
    · intro h
      refine ⟨?_, fun pre v hread => h (c :: pre) v hread.cons⟩
      cases hhere : read (c :: p) with
      | none => rfl
      | some v => exact absurd ⟨c :: p, rfl, hhere⟩ (h [] v)

/-- The place that is taken is the first one. -/
theorem firstAt_eq_some (h : firstAt read p = some v) : ∃ pre, ReadsAt read p pre v ∧
    ∀ pre' v', ReadsAt read p pre' v' → pre.length ≤ pre'.length := by
  induction p with
  | nil => cases h
  | cons c p ih =>
    rw [firstAt] at h
    cases hhere : read (c :: p) with
    | some u =>
      rw [hhere] at h
      cases h
      exact ⟨[], ⟨c :: p, rfl, hhere⟩, fun _ _ _ => Nat.zero_le _⟩
    | none =>
      rw [hhere, Option.none_or] at h
      obtain ⟨pre, hread, hfirst⟩ := ih h
      refine ⟨c :: pre, hread.cons, fun pre' v' h' => ?_⟩
      obtain ⟨-, hnow⟩ | ⟨pre'', rfl, hrest⟩ := readsAt_cons_iff.mp h'
      · cases hhere.symm.trans hnow
      · exact Nat.succ_le_succ (hfirst pre'' v' hrest)

/-- Places of one payload are told apart by their distance from its start. -/
theorem ReadsAt.unique {pre pre' v' : Bytes} (h : ReadsAt read p pre v) (h' : ReadsAt read p pre' v')
    (hlength : pre.length = pre'.length) : pre = pre' ∧ v = v' := by
  obtain ⟨post, rfl, hread⟩ := h
  obtain ⟨post', heq, hread'⟩ := h'
  obtain ⟨rfl, rfl⟩ := List.append_inj heq hlength
  exact ⟨rfl, Option.some.inj (hread.symm.trans hread')⟩

end FirstAt

/-- The name of a field as the callers give it, with its quotes. -/
def fieldKey (name : Bytes) : Bytes := 34 :: name ++ [34]

/-- What a scan makes of a place of the payload. -/
def readField (blank : UInt8 → Bool) (key p : Bytes) : Option Bytes :=
  if key.isPrefixOf p then stringBehind blank key p else none

theorem extractJsonString_eq (payload key : Bytes) :
    extractJsonString payload key = (firstAt (readField isBlank key) payload).getD [] := by
  induction payload with
  | nil => rfl
  | cons c p ih =>
    rw [extractJsonString, firstAt, readField]
    split
    · cases hread : stringBehind isBlank key (c :: p) with
      | some out => rfl
      | none => exact ih
    · exact ih

section ReadField
variable {blank : UInt8 → Bool} {key p v : Bytes}

theorem exists_of_dropWhile {c : UInt8} (h : (p.dropWhile blank).head? = some c) :
    ∃ w, p = w ++ c :: (p.dropWhile blank).tail ∧ ∀ d ∈ w, blank d = true := by
  refine ⟨p.takeWhile blank, ?_, fun d hd => List.mem_takeWhile_imp hd⟩
  rw [← List.eq_cons_of_mem_head? h]
  exact List.takeWhile_append_dropWhile.symm

theorem dropWhile_blanks {c : UInt8} {w : Bytes} (hw : ∀ d ∈ w, blank d = true)
    (hc : blank c = false) (q : Bytes) : (w ++ c :: q).dropWhile blank = c :: q := by
  rw [List.dropWhile_append_of_pos hw, List.dropWhile_cons_of_neg (by simp [hc])]

theorem readField_eq_some_iff (hcolon : blank 58 = false) (hquote : blank 34 = false) :
    readField blank key p = some v ↔ ∃ w₁ w₂ rest, p = key ++ w₁ ++ 58 :: w₂ ++ 34 :: rest ∧
      (∀ c ∈ w₁, blank c = true) ∧ (∀ c ∈ w₂, blank c = true) ∧ v = readString false rest := by
  constructor
  · intro h
    rw [readField] at h
    split at h
    · next hprefix =>
      obtain ⟨q, rfl⟩ := List.isPrefixOf_iff_prefix.mp hprefix
      simp only [stringBehind, List.drop_left] at h
      split at h
      · next hj =>
        obtain ⟨w₁, hsplit, hw₁⟩ := exists_of_dropWhile hj
        split at h
        · next hk =>
          obtain ⟨w₂, hsplit', hw₂⟩ := exists_of_dropWhile hk
          cases h
          refine ⟨w₁, w₂, _, ?_, hw₁, hw₂, rfl⟩
          simp only [List.append_assoc, List.cons_append]
          rw [← hsplit', ← hsplit]
        · cases h
      · cases h
    · cases h
  · rintro ⟨w₁, w₂, rest, rfl, hw₁, hw₂, rfl⟩
    have hprefix : key.isPrefixOf (key ++ (w₁ ++ 58 :: (w₂ ++ 34 :: rest))) = true :=
      List.isPrefixOf_iff_prefix.mpr (List.prefix_append _ _)
    simp only [List.append_assoc, List.cons_append]
    rw [readField, if_pos hprefix, stringBehind, List.drop_left, dropWhile_blanks hw₁ hcolon]
    rw [if_pos List.head?_cons, List.tail_cons, dropWhile_blanks hw₂ hquote, if_pos List.head?_cons,
      List.tail_cons]

theorem readField_nil (hcolon : blank 58 = false) (hquote : blank 34 = false) :
    readField blank key [] = none := by
  rw [Option.eq_none_iff_forall_ne_some]
  intro v h
  obtain ⟨w₁, w₂, rest, heq, -⟩ := (readField_eq_some_iff hcolon hquote).mp h
  simp at heq

end ReadField

/-- Nothing is passed over. -/
def noBlank (_ : UInt8) : Bool := false

theorem messageKey_eq : messageKey = fieldKey (lit "message") ++ [58, 34] := by decide

theorem readField_noBlank (key p : Bytes) : readField noBlank key p =
    if (key ++ [58, 34]).isPrefixOf p then some (readString false (p.drop (key ++ [58, 34]).length))
    else none := by
  by_cases hprefix : (key ++ [58, 34]).isPrefixOf p = true
  · obtain ⟨q, rfl⟩ := List.isPrefixOf_iff_prefix.mp hprefix
    rw [if_pos hprefix, List.drop_left]
    exact (readField_eq_some_iff rfl rfl).mpr ⟨[], [], q, by simp, by simp, by simp, rfl⟩
  · rw [if_neg hprefix, Option.eq_none_iff_forall_ne_some]
    intro v h
    obtain ⟨w₁, w₂, rest, rfl, hw₁, hw₂, -⟩ := (readField_eq_some_iff rfl rfl).mp h
    have hnil {w : Bytes} (hw : ∀ c ∈ w, noBlank c = true) : w = [] :=
      List.eq_nil_iff_forall_not_mem.mpr fun c hc => absurd (hw c hc) (by simp [noBlank])
    rw [hnil hw₁, hnil hw₂] at hprefix
    refine hprefix (List.isPrefixOf_iff_prefix.mpr ⟨rest, ?_⟩)
    simp

theorem extractMessage_eq (payload : Bytes) : extractMessage payload =
    (firstAt (readField noBlank (fieldKey (lit "message"))) payload).getD [] := by
  have hne : messageKey ≠ [] := by decide
  rw [extractMessage]
  induction payload with
  | nil => rw [find, if_neg hne, firstAt, Option.getD_none]
  | cons c p ih =>
    rw [find, firstAt, readField_noBlank, ← messageKey_eq]
    by_cases hprefix : messageKey.isPrefixOf (c :: p) = true
    · rw [if_pos hprefix, if_pos hprefix]
      rfl
    · rw [if_neg hprefix, if_neg hprefix]
      exact ih

/-! ## Strings without their backslashes -/

/-- What is left of a byte that was escaped. -/
def letters (c : UInt8) : Bytes := if c < 0x20 then (escapeByte c).tail else [c]

theorem readString_plain {c : UInt8} (hquote : c ≠ 34) (hescape : c ≠ 92) (p : Bytes) :
    readString false (c :: p) = c :: readString false p := by
  simp [readString, hquote, hescape]

theorem readString_escaped (c : UInt8) (p : Bytes) :
    readString false (92 :: c :: p) = c :: readString false p := by
  simp [readString]

theorem readString_letters {ls : Bytes} (h : ∀ c ∈ ls, c ≠ 34 ∧ c ≠ 92) (p : Bytes) :
    readString false (ls ++ p) = ls ++ readString false p := by
  induction ls with
  | nil => rfl
  | cons c ls ih =>
    obtain ⟨hquote, hescape⟩ := h c (.head _)
    rw [List.cons_append, readString_plain hquote hescape, ih fun d hd => h d (.tail _ hd)]
    rfl

/-- A control character is written as a backslash, a letter and sometimes digits. -/
theorem escapeByte_control (c : UInt8) (hc : c < 0x20) : ∃ l ls, escapeByte c = 92 :: l :: ls ∧
    0x20 ≤ l ∧ ∀ d ∈ ls, d ≠ 34 ∧ d ≠ 92 := by
  have hall : ∀ b : BitVec 8, UInt8.ofBitVec b < 0x20 → (escapeByte ⟨b⟩).head? = some 92 ∧
      (escapeByte ⟨b⟩).tail ≠ [] ∧ (escapeByte ⟨b⟩).tail.headD 0 ≥ 0x20 ∧
      (escapeByte ⟨b⟩).tail.tail.all fun d => d != 34 && d != 92 := by
    decide +kernel
  obtain ⟨hhead, htail, hl, hls⟩ := hall c.toBitVec hc
  obtain ⟨l, ls, htail⟩ := List.exists_cons_of_ne_nil htail
  refine ⟨l, ls, ?_, ?_, ?_⟩
  · rw [List.eq_cons_of_mem_head? hhead, htail]
  · simpa [htail] using hl
  · simpa [htail] using hls

theorem readString_escapeByte (c : UInt8) (p : Bytes) :
    readString false (escapeByte c ++ p) = letters c ++ readString false p := by
  by_cases hc : c < 0x20
  · obtain ⟨l, ls, heq, -, hls⟩ := escapeByte_control c hc
    rw [letters, if_pos hc, heq, List.cons_append, List.cons_append, readString_escaped,
      readString_letters hls]
    rfl
  · rw [letters, if_neg hc]
    by_cases hquote : c = 34
    · subst hquote
      exact readString_escaped 34 p
    · by_cases hescape : c = 92
      · subst hescape
        exact readString_escaped 92 p
      · have heq : escapeByte c = [c] := by
          have hne (d : UInt8) (hd : d < 0x20) : c ≠ d := fun h => hc (h ▸ hd)
          rw [escapeByte, if_neg hquote, if_neg hescape, if_neg (hne 8 (by decide)),
            if_neg (hne 12 (by decide)), if_neg (hne 10 (by decide)), if_neg (hne 13 (by decide)),
            if_neg (hne 9 (by decide)), if_neg hc]
        rw [heq]
        exact readString_plain hquote hescape p

/-- A string is read up to its quote. -/
theorem readString_jsonEscape (s p : Bytes) :
    readString false (jsonEscape s ++ 34 :: p) = s.flatMap letters := by
  induction s with
  | nil => rfl
  | cons c s ih =>
    rw [jsonEscape, List.flatMap_cons, List.append_assoc, readString_escapeByte]
    exact congrArg (letters c ++ ·) ih

/-- No byte of a text without control characters is changed, and every control character is. -/
theorem flatMap_letters_eq_iff {s : Bytes} : s.flatMap letters = s ↔ ∀ c ∈ s, 0x20 ≤ c := by
  induction s with
  | nil => simp
  | cons c s ih =>
    rw [List.flatMap_cons, List.forall_mem_cons, ← ih]
    by_cases hc : c < 0x20
    · obtain ⟨l, ls, heq, hl, -⟩ := escapeByte_control c hc
      rw [letters, if_pos hc, heq]
      refine iff_of_false (fun h => ?_) fun h => absurd h.1 (UInt8.not_le.mpr hc)
      obtain ⟨rfl, -⟩ := List.cons_eq_cons.mp h
      exact absurd hl (UInt8.not_le.mpr hc)
    · rw [letters, if_neg hc]
      have hle : 0x20 ≤ c := UInt8.not_lt.mp hc
      simp [hle]

/-! ## Fields -/

/-- The blanks of JSON. -/
def jsonBlank (c : UInt8) : Bool := c == 32 || c == 9 || c == 10 || c == 13

/-- The payload has a member with the name and the string `s`, behind `pre` and with the blanks `w₁` and
`w₂` around its colon, and no other member with the name. Outside of strings, a string is a member's
name if there is a colon behind it. -/
structure Field (payload name s pre w₁ w₂ : Bytes) : Prop where
  text : ∃ post, payload =
    pre ++ fieldKey name ++ w₁ ++ 58 :: w₂ ++ 34 :: (jsonEscape s ++ 34 :: post)
  outside : Lex.outside.run pre = .outside
  blank₁ : ∀ c ∈ w₁, jsonBlank c = true
  blank₂ : ∀ c ∈ w₂, jsonBlank c = true
  once : ∀ pre' w rest, payload = pre' ++ fieldKey name ++ w ++ 58 :: rest →
    (∀ c ∈ w, jsonBlank c = true) → Lex.outside.run pre' = .outside → pre' = pre

/-- A member whose name ends with an escaped quote and then `name`. Its value is a string, which is `v`
without the backslashes, and only what `blank` passes over is around its colon. -/
def Lookalike (blank : UInt8 → Bool) (payload name pre v : Bytes) : Prop :=
  Lex.outside.run pre = .escaped ∧
  ∃ w₁ w₂ rest, payload = pre ++ fieldKey name ++ w₁ ++ 58 :: w₂ ++ 34 :: rest ∧
    (∀ c ∈ w₁, blank c = true) ∧ (∀ c ∈ w₂, blank c = true) ∧ v = readString false rest

def Passes (blank : UInt8 → Bool) (w₁ w₂ : Bytes) : Prop :=
  (∀ c ∈ w₁, blank c = true) ∧ ∀ c ∈ w₂, blank c = true

/-- When a field is read back: the blanks around its colon are passed over, its text has no control
characters and no lookalike is in front of it. Else its text happens to be that of the first
lookalike, or it is empty and nothing is found. -/
def ReadBack (blank : UInt8 → Bool) (payload name s pre w₁ w₂ : Bytes) : Prop :=
  (Passes blank w₁ w₂ ∧ (∀ c ∈ s, 0x20 ≤ c) ∧
    ∀ pre' v, Lookalike blank payload name pre' v → pre.length < pre'.length) ∨
  (∃ pre', Lookalike blank payload name pre' s ∧ (Passes blank w₁ w₂ → pre'.length < pre.length) ∧
    ∀ pre'' v, Lookalike blank payload name pre'' v → pre'.length ≤ pre''.length) ∨
  (¬Passes blank w₁ w₂ ∧ s = [] ∧ ∀ pre' v, ¬Lookalike blank payload name pre' v)

/-- No string that ends with the name and its quotes is the name of a member. -/
def OnlyInValues (payload name : Bytes) : Prop :=
  ∀ pre w rest, payload = pre ++ fieldKey name ++ w ++ 58 :: rest → ¬∀ c ∈ w, jsonBlank c = true

section Fields
variable {blank : UInt8 → Bool} {payload name s pre w₁ w₂ pre' v : Bytes}

theorem colon_of_subset (hblank : ∀ c, blank c = true → jsonBlank c = true) : blank 58 = false :=
  Bool.eq_false_iff.mpr fun h => absurd (hblank 58 h) (by decide)

theorem quote_of_subset (hblank : ∀ c, blank c = true → jsonBlank c = true) : blank 34 = false :=
  Bool.eq_false_iff.mpr fun h => absurd (hblank 34 h) (by decide)

theorem blanks_unique {w w' p q : Bytes} {c : UInt8} (hw : ∀ d ∈ w, jsonBlank d = true)
    (hw' : ∀ d ∈ w', jsonBlank d = true) (hc : jsonBlank c = false)
    (h : w ++ c :: p = w' ++ c :: q) : w = w' ∧ p = q := by
  have hdrop := congrArg (List.dropWhile jsonBlank) h
  rw [dropWhile_blanks hw hc, dropWhile_blanks hw' hc] at hdrop
  obtain rfl := (List.cons_eq_cons.mp hdrop).2
  exact ⟨List.append_cancel_right h, rfl⟩

/-- What a scan makes of the places of a key. -/
theorem readsAt_iff (hblank : ∀ c, blank c = true → jsonBlank c = true) :
    ReadsAt (readField blank (fieldKey name)) payload pre v ↔
      ∃ w₁ w₂ rest, payload = pre ++ fieldKey name ++ w₁ ++ 58 :: w₂ ++ 34 :: rest ∧
        (∀ c ∈ w₁, blank c = true) ∧ (∀ c ∈ w₂, blank c = true) ∧ v = readString false rest := by
  have hiff (p : Bytes) : readField blank (fieldKey name) p = some v ↔ _ :=
    readField_eq_some_iff (colon_of_subset hblank) (quote_of_subset hblank)
  constructor
  · rintro ⟨post, rfl, hread⟩
    obtain ⟨w₁, w₂, rest, rfl, hw₁, hw₂, rfl⟩ := (hiff post).mp hread
    exact ⟨w₁, w₂, rest, by simp, hw₁, hw₂, rfl⟩
  · rintro ⟨w₁, w₂, rest, rfl, hw₁, hw₂, rfl⟩
    refine ⟨fieldKey name ++ w₁ ++ 58 :: w₂ ++ 34 :: rest, by simp, ?_⟩
    exact (hiff _).mpr ⟨w₁, w₂, rest, rfl, hw₁, hw₂, rfl⟩

theorem Lookalike.readsAt (hblank : ∀ c, blank c = true → jsonBlank c = true)
    (h : Lookalike blank payload name pre v) :
    ReadsAt (readField blank (fieldKey name)) payload pre v :=
  (readsAt_iff hblank).mpr h.2

theorem Field.readsAt (hblank : ∀ c, blank c = true → jsonBlank c = true)
    (h : Field payload name s pre w₁ w₂) (hpass : Passes blank w₁ w₂) :
    ReadsAt (readField blank (fieldKey name)) payload pre (s.flatMap letters) := by
  obtain ⟨post, htext⟩ := h.text
  exact (readsAt_iff hblank).mpr
    ⟨w₁, w₂, _, htext, hpass.1, hpass.2, (readString_jsonEscape s post).symm⟩

/-- The quote in front of a name does not end a string. -/
theorem run_ne_inside (hname : ∀ c ∈ name, isWordByte c = true) (hvalid : Valid payload)
    {post : Bytes} (h : payload = pre ++ fieldKey name ++ post) :
    Lex.outside.run pre ≠ .inside := by
  intro hinside
  have htidy := JsonText.tidy_of_valid hvalid
  have hsplit : payload = pre ++ 34 :: (name ++ 34 :: post) := by simp [h, fieldKey]
  rw [hsplit] at htidy
  have hapart := htidy.apart hinside
  cases name with
  | nil => exact (hapart 34 rfl).1 rfl
  | cons c name => exact absurd (hname c (.head _)) (by simp [(hapart c rfl).2])

/-- A scan makes something of lookalikes and of the field itself. -/
theorem readsAt_cases (hname : ∀ c ∈ name, isWordByte c = true) (hvalid : Valid payload)
    (hblank : ∀ c, blank c = true → jsonBlank c = true) (h : Field payload name s pre w₁ w₂)
    (hread : ReadsAt (readField blank (fieldKey name)) payload pre' v) :
    Lookalike blank payload name pre' v ∨
      (pre' = pre ∧ Passes blank w₁ w₂ ∧ v = s.flatMap letters) := by
  obtain ⟨u₁, u₂, rest, htext, hu₁, hu₂, hv⟩ := (readsAt_iff hblank).mp hread
  cases hrun : Lex.outside.run pre' with
  | escaped => exact .inl ⟨hrun, u₁, u₂, rest, htext, hu₁, hu₂, hv⟩
  | inside =>
    have hsplit : payload = pre' ++ fieldKey name ++ (u₁ ++ 58 :: u₂ ++ 34 :: rest) := by
      simp [htext]
    exact absurd hrun (run_ne_inside hname hvalid hsplit)
  | outside =>
    have hj₁ : ∀ c ∈ u₁, jsonBlank c = true := fun c hc => hblank c (hu₁ c hc)
    have hj₂ : ∀ c ∈ u₂, jsonBlank c = true := fun c hc => hblank c (hu₂ c hc)
    obtain rfl := h.once pre' u₁ (u₂ ++ 34 :: rest) (by simp [htext]) hj₁ hrun
    obtain ⟨post, hfield⟩ := h.text
    have heq := htext.symm.trans hfield
    simp only [List.append_assoc, List.append_cancel_left_eq, List.cons_append] at heq
    obtain ⟨rfl, hvalue⟩ := blanks_unique hj₁ h.blank₁ (by decide) heq
    obtain ⟨rfl, rfl⟩ := blanks_unique hj₂ h.blank₂ (by decide) hvalue
    exact .inr ⟨rfl, ⟨hu₁, hu₂⟩, hv.trans (readString_jsonEscape s post)⟩

theorem Lookalike.length_ne (h : Lookalike blank payload name pre' v)
    (hfield : Field payload name s pre w₁ w₂) : pre'.length ≠ pre.length := by
  intro hlength
  obtain ⟨w₁', w₂', rest, htext, -⟩ := h.2
  obtain ⟨post, htext'⟩ := hfield.text
  have heq := htext.symm.trans htext'
  simp only [List.append_assoc] at heq
  obtain ⟨rfl, -⟩ := List.append_inj heq hlength
  cases h.1.symm.trans hfield.outside

/-- What is read at the first place is what a scan finds. -/
theorem getD_firstAt {first v : Bytes} (hblank : ∀ c, blank c = true → jsonBlank c = true)
    (hread : ReadsAt (readField blank (fieldKey name)) payload first v)
    (hfirst : ∀ pre' v', ReadsAt (readField blank (fieldKey name)) payload pre' v' →
      first.length ≤ pre'.length) :
    (firstAt (readField blank (fieldKey name)) payload).getD [] = v := by
  have hnil : readField blank (fieldKey name) [] = none :=
    readField_nil (colon_of_subset hblank) (quote_of_subset hblank)
  cases hscan : firstAt (readField blank (fieldKey name)) payload with
  | none => exact absurd hread ((firstAt_eq_none_iff hnil).mp hscan _ _)
  | some u =>
    obtain ⟨place, hplace, hleast⟩ := firstAt_eq_some hscan
    have hlength := Nat.le_antisymm (hleast _ _ hread) (hfirst _ _ hplace)
    exact (hplace.unique hread hlength).2

theorem ReadBack.scan_eq (hname : ∀ c ∈ name, isWordByte c = true) (hvalid : Valid payload)
    (hblank : ∀ c, blank c = true → jsonBlank c = true) (h : Field payload name s pre w₁ w₂)
    (hback : ReadBack blank payload name s pre w₁ w₂) :
    (firstAt (readField blank (fieldKey name)) payload).getD [] = s := by
  obtain ⟨hpass, hplain, hlater⟩ | ⟨first, hlook, hbefore, hfirst⟩ | ⟨hpass, rfl, hnone⟩ := hback
  · have hread := h.readsAt hblank hpass
    rw [flatMap_letters_eq_iff.mpr hplain] at hread
    refine getD_firstAt hblank hread fun pre' v' hread' => ?_
    obtain hlook | ⟨rfl, -, -⟩ := readsAt_cases hname hvalid hblank h hread'
    · exact Nat.le_of_lt (hlater _ _ hlook)
    · exact Nat.le_refl _
  · refine getD_firstAt hblank (hlook.readsAt hblank) fun pre' v' hread' => ?_
    obtain hlook' | ⟨rfl, hpass, -⟩ := readsAt_cases hname hvalid hblank h hread'
    · exact hfirst _ _ hlook'
    · exact Nat.le_of_lt (hbefore hpass)
  · have hnil : readField blank (fieldKey name) [] = none :=
      readField_nil (colon_of_subset hblank) (quote_of_subset hblank)
    have hscan : firstAt (readField blank (fieldKey name)) payload = none := by
      refine (firstAt_eq_none_iff hnil).mpr fun pre' v' hread => ?_
      obtain hlook | ⟨-, hpass', -⟩ := readsAt_cases hname hvalid hblank h hread
      · exact hnone _ _ hlook
      · exact hpass hpass'
    rw [hscan]
    rfl

/-- A scan reads the field back exactly when it should. -/
theorem firstAt_eq_iff (hname : ∀ c ∈ name, isWordByte c = true) (hvalid : Valid payload)
    (hblank : ∀ c, blank c = true → jsonBlank c = true) (h : Field payload name s pre w₁ w₂) :
    (firstAt (readField blank (fieldKey name)) payload).getD [] = s ↔
      ReadBack blank payload name s pre w₁ w₂ := by
  refine ⟨fun heq => ?_, ReadBack.scan_eq hname hvalid hblank h⟩
  have hnil : readField blank (fieldKey name) [] = none :=
    readField_nil (colon_of_subset hblank) (quote_of_subset hblank)
  cases hscan : firstAt (readField blank (fieldKey name)) payload with
  | none =>
    have hnone := (firstAt_eq_none_iff hnil).mp hscan
    rw [hscan] at heq
    exact .inr (.inr ⟨fun hpass => hnone _ _ (h.readsAt hblank hpass), heq.symm,
      fun pre' v hlook => hnone _ _ (hlook.readsAt hblank)⟩)
  | some v =>
    rw [hscan, Option.getD_some] at heq
    subst heq
    obtain ⟨first, hread, hfirst⟩ := firstAt_eq_some hscan
    have hlooks (pre' u : Bytes) (hlook : Lookalike blank payload name pre' u) :
        first.length ≤ pre'.length := hfirst _ _ (hlook.readsAt hblank)
    obtain hlook | ⟨rfl, hpass, hv⟩ := readsAt_cases hname hvalid hblank h hread
    · refine .inr (.inl ⟨first, hlook, fun hpass => ?_, hlooks⟩)
      exact Nat.lt_of_le_of_ne (hfirst _ _ (h.readsAt hblank hpass)) (hlook.length_ne h)
    · refine .inl ⟨hpass, flatMap_letters_eq_iff.mp hv.symm, fun pre' u hlook => ?_⟩
      exact Nat.lt_of_le_of_ne (hlooks pre' u hlook) (hlook.length_ne h).symm

/-- Text in values is not taken for the field. -/
theorem firstAt_onlyInValues (hblank : ∀ c, blank c = true → jsonBlank c = true)
    (h : OnlyInValues payload name) : firstAt (readField blank (fieldKey name)) payload = none := by
  have hnil : readField blank (fieldKey name) [] = none :=
    readField_nil (colon_of_subset hblank) (quote_of_subset hblank)
  refine (firstAt_eq_none_iff hnil).mpr fun pre' v hread => ?_
  obtain ⟨u₁, u₂, rest, htext, hu₁, -⟩ := (readsAt_iff hblank).mp hread
  refine h pre' u₁ (u₂ ++ 34 :: rest) ?_ fun c hc => hblank c (hu₁ c hc)
  simp [htext]

end Fields

/-- **When the texts of fields are read back.** A name is a word, as it is for every caller. -/
theorem extract_iff (hvalid : Valid payload) :
    (∀ name, (∀ c ∈ name, isWordByte c = true) →
      (∀ s pre w₁ w₂, Field payload name s pre w₁ w₂ →
        (extractJsonString payload (fieldKey name) = s ↔
          ReadBack isBlank payload name s pre w₁ w₂)) ∧
      (OnlyInValues payload name → extractJsonString payload (fieldKey name) = [])) ∧
    (∀ s pre w₁ w₂, Field payload (lit "message") s pre w₁ w₂ →
      (extractMessage payload = s ↔ ReadBack noBlank payload (lit "message") s pre w₁ w₂)) ∧
    (OnlyInValues payload (lit "message") → extractMessage payload = []) := by
  have hblank : ∀ c, isBlank c = true → jsonBlank c = true := by
    intro c hc
    rw [jsonBlank, Bool.or_eq_true, Bool.or_eq_true]
    exact .inl (.inl hc)
  have hnoBlank : ∀ c, noBlank c = true → jsonBlank c = true := fun c hc => by cases hc
  have hmessage : ∀ c ∈ lit "message", isWordByte c = true :=
    List.all_eq_true.mp (by decide : (lit "message").all isWordByte = true)
  refine ⟨fun name hname => ⟨fun s pre w₁ w₂ h => ?_, fun h => ?_⟩, fun s pre w₁ w₂ h => ?_,
    fun h => ?_⟩
  · rw [extractJsonString_eq]
    exact firstAt_eq_iff hname hvalid hblank h
  · rw [extractJsonString_eq, firstAt_onlyInValues hblank h]
    rfl
  · rw [extractMessage_eq]
    exact firstAt_eq_iff hmessage hvalid hnoBlank h
  · rw [extractMessage_eq, firstAt_onlyInValues hnoBlank h]
    rfl

/-! ## A line break -/

/-- A payload with a message that is a line break. -/
def newlinePayload : Bytes := lit "\x7b\"message\":\"\\n\"\x7d"

theorem valid_newlinePayload : Valid newlinePayload := by
  refine ⟨.object [("message".toList, .string ['\n'])], [], _, [], List.forall_mem_nil _,
    JsonText.denotes_render _, List.forall_mem_nil _, ?_⟩
  decide

theorem field_newlinePayload :
    Field newlinePayload (lit "message") [10] (lit "\x7b") [] [] where
  text := ⟨lit "\x7d", by decide⟩
  outside := by decide
  blank₁ := List.forall_mem_nil _
  blank₂ := List.forall_mem_nil _
  once pre' w rest htext _ _ := by
    have hplaces : ∀ k < 18, (fieldKey (lit "message")).isPrefixOf (newlinePayload.drop k) = true →
        k = 1 := by decide
    have hdrop : newlinePayload.drop pre'.length =
        fieldKey (lit "message") ++ (w ++ 58 :: rest) := by
      simp [htext]
    have hlength := congrArg List.length htext
    have hsize : newlinePayload.length = 16 := by decide
    simp only [List.length_append, List.length_cons, hsize] at hlength
    have hplace := hplaces pre'.length (by omega)
      (List.isPrefixOf_iff_prefix.mpr (hdrop ▸ List.prefix_append _ _))
    have htake : newlinePayload.take pre'.length = pre' := by simp [htext]
    rw [← htake, hplace]
    decide

theorem extract_newline :
    (extractJsonString newlinePayload (fieldKey (lit "message")) = [10] ↔
      ReadBack isBlank newlinePayload (lit "message") [10] (lit "\x7b") [] []) ∧
    (extractMessage newlinePayload = [10] ↔
      ReadBack noBlank newlinePayload (lit "message") [10] (lit "\x7b") [] []) := by
  have hword : ∀ c ∈ lit "message", isWordByte c = true :=
    List.all_eq_true.mp (by decide : (lit "message").all isWordByte = true)
  obtain ⟨hstring, hmessage, -⟩ := extract_iff valid_newlinePayload
  exact ⟨(hstring _ hword).1 _ _ _ _ field_newlinePayload, hmessage _ _ _ _ field_newlinePayload⟩

/-- The letter of the escape comes back, not the line break. -/
theorem extract_newline_eq : Valid newlinePayload ∧
    Field newlinePayload (lit "message") [10] (lit "\x7b") [] [] ∧
    extractMessage newlinePayload = lit "n" ∧
    extractJsonString newlinePayload (fieldKey (lit "message")) = lit "n" ∧ lit "n" ≠ [10] :=
  ⟨valid_newlinePayload, field_newlinePayload, by decide, by decide, by decide⟩

end McpeLauncher.Discord
