import McpeLauncher.Client.Base64Validation

/-!
# The other base64 decoder

`playapi::base64` is a copy of `Base64` with the same table. Its `decode` looks for the end of the
input only behind a skipped character, so that it reads on behind a group that is cut.
-/

namespace McpeLauncher.PlayApi.Base64

open McpeLauncher.Base64 (table reverseTable isSkipped octets Cut Text Ascii lineBreaks)

/-- The positions of the input that are read, and how the run ends: none if it goes on behind the
zero that ends the string. -/
abbrev Outcome (α : Type) := List Nat × Option (Except String α)

namespace Outcome

def throw {α : Type} (what : String) : Outcome α := ([], some (.error what))

def ret {α : Type} (a : α) : Outcome α := ([], some (.ok a))

def read {α : Type} (p : Nat) (x : Outcome α) : Outcome α := (p :: x.1, x.2)

def bind {α β : Type} (x : Outcome α) (f : α → Outcome β) : Outcome β :=
  match x.2 with
  | none => (x.1, none)
  | some (.error what) => (x.1, some (.error what))
  | some (.ok a) => (x.1 ++ (f a).1, (f a).2)

end Outcome

/-! ## The decoder -/

section Decode
variable (outside : UInt8 → UInt8) (skipChars : List UInt8)

/-- The loop that reads `i[n]`. `input` is what is left from the position `p` on. -/
def readDigit (n : Nat) (previous : UInt8) (p : Nat) (input : List UInt8) :
    Outcome (UInt8 × Nat × List UInt8) :=
  match input with
  -- the terminating zero is in no group and `strchr` finds it, and `p` is beyond `input.size()`
  | [] => ([p, p + 1], none)
  | c :: input => .read p <|
    let i := reverseTable outside c
    if i ≠ 255 then
      if (i = 64 ∧ n < 2) ∨ (n = 3 ∧ previous = 64 ∧ i ≠ 64) then .throw "Invalid '=' character"
      else .ret (i, p + 1, input)
    else if isSkipped skipChars c then
      if input = [] then .throw "Unexpected end of input" else readDigit n previous (p + 1) input
    else .throw ("Invalid character at " ++ toString p)

/-- One round of the loop of `decode`: four digits. -/
def readBlock (p : Nat) (input : List UInt8) : Outcome (List UInt8 × Nat × List UInt8) :=
  (readDigit outside skipChars 0 64 p input).bind fun (i0, p, input) =>
  (readDigit outside skipChars 1 i0 p input).bind fun (i1, p, input) =>
  (readDigit outside skipChars 2 i1 p input).bind fun (i2, p, input) =>
  (readDigit outside skipChars 3 i2 p input).bind fun (i3, p, input) =>
  .ret (octets i0 i1 i2 i3, p, input)

variable {outside skipChars}

theorem Outcome.bind_eq_ok {α β : Type} {x : Outcome α} {f : α → Outcome β} {b : β}
    (h : (x.bind f).2 = some (.ok b)) : ∃ a, x.2 = some (.ok a) ∧ (f a).2 = some (.ok b) := by
  unfold Outcome.bind at h
  split at h
  · cases h
  · cases h
  · next a ha => exact ⟨a, ha, h⟩

theorem length_readDigit (h : (readDigit outside skipChars n previous p input).2 =
    some (.ok (i, p', rest))) : rest.length < input.length := by
  induction input generalizing p with
  | nil => cases h
  | cons c input ih =>
    simp only [readDigit, Outcome.read] at h
    split at h
    · split at h
      · cases h
      · cases h
        exact Nat.lt_succ_self _
    · split at h
      · split at h
        · cases h
        · exact Nat.lt_succ_of_lt (ih h)
      · cases h

theorem length_readBlock (h : (readBlock outside skipChars p input).2 =
    some (.ok (out, p', rest))) : rest.length < input.length := by
  obtain ⟨⟨i0, p0, rest0⟩, h0, h⟩ := Outcome.bind_eq_ok h
  obtain ⟨⟨i1, p1, rest1⟩, h1, h⟩ := Outcome.bind_eq_ok h
  obtain ⟨⟨i2, p2, rest2⟩, h2, h⟩ := Outcome.bind_eq_ok h
  obtain ⟨⟨i3, p3, rest3⟩, h3, h⟩ := Outcome.bind_eq_ok h
  cases h
  have hlt0 := length_readDigit h0
  have hlt1 := length_readDigit h1
  have hlt2 := length_readDigit h2
  have hlt3 := length_readDigit h3
  omega

variable (outside skipChars)

def decodeLoop (p : Nat) (input output : List UInt8) : Outcome (List UInt8) :=
  match input with
  | [] => .ret output
  | c :: input =>
    match _h : readBlock outside skipChars p (c :: input) with
    | (reads, none) => (reads, none)
    | (reads, some (.error what)) => (reads, some (.error what))
    | (reads, some (.ok (out, p, rest))) =>
      let x := decodeLoop p rest (output ++ out)
      (reads ++ x.1, x.2)
termination_by input.length
decreasing_by exact length_readBlock (congrArg Prod.snd ‹_›)

def decode (input : List UInt8) : Outcome (List UInt8) := decodeLoop outside skipChars 0 input []

end Decode

/-! ## What is read and what is skipped -/

/-- A skip character that is not in the table. -/
def Ignored (skipChars : List UInt8) (c : UInt8) : Prop :=
  c ∉ table ∧ c ≠ 61 ∧ isSkipped skipChars c = true
  deriving Decidable

/-- The text without what is skipped. -/
def kept (skipChars input : List UInt8) : List UInt8 := input.filter (¬ Ignored skipChars ·)

def EndsIgnored (skipChars input : List UInt8) : Prop := ∃ c ∈ input.getLast?, Ignored skipChars c

/-- A character that may be read as `i[n]`. -/
def Digit (n : Nat) (previous c : UInt8) : Prop :=
  (c ∈ table ∧ ¬(n = 3 ∧ previous = 64)) ∨ (c = 61 ∧ 2 ≤ n)

/-- Only positions of the input are read, and both return the same or both throw. -/
structure Agrees {α : Type} (size : Nat) (x : Outcome α) (y : Except String α) : Prop where
  inside : ∀ p ∈ x.1, p < size
  result : (∃ a, x.2 = some (.ok a) ∧ y = .ok a) ∨
    (∃ what, x.2 = some (.error what)) ∧ ∃ what, y = .error what

section Agrees
variable {α β : Type} {size : Nat} {x : Outcome α} {y : Except String α} {a : α}
  {f : α → Outcome β} {g : α → Except String β}

theorem agrees_ret (a : α) : Agrees size (.ret a) (.ok a) :=
  ⟨List.forall_mem_nil _, .inl ⟨a, rfl, rfl⟩⟩

theorem agrees_bind_ok (hinside : ∀ p ∈ x.1, p < size) (hx : x.2 = some (.ok a)) (hy : y = .ok a) :
    Agrees size (x.bind f) (y.bind g) ↔ Agrees size (f a) (g a) := by
  have hbind : x.bind f = (x.1 ++ (f a).1, (f a).2) := by rw [Outcome.bind, hx]
  rw [hbind, hy]
  exact ⟨fun h => ⟨fun p hp => h.inside p (List.mem_append_right _ hp), h.result⟩,
    fun h => ⟨fun p hp => (List.mem_append.mp hp).elim (hinside p) (h.inside p), h.result⟩⟩

theorem agrees_bind_error {what what' : String} (hinside : ∀ p ∈ x.1, p < size)
    (hx : x.2 = some (.error what)) (hy : y = .error what') : Agrees size (x.bind f) (y.bind g) := by
  have hbind : x.bind f = (x.1, some (.error what)) := by rw [Outcome.bind, hx]
  rw [hbind, hy]
  exact ⟨hinside, .inr ⟨⟨what, rfl⟩, what', rfl⟩⟩

end Agrees

/-! ## Digits -/

section Digits
variable {outside : UInt8 → UInt8} {skipChars input rest pre ks : List UInt8} {c : UInt8}
  {n p : Nat} {previous : UInt8}

theorem reverseTable_ignored (hc : c < 128) (h : Ignored skipChars c) :
    reverseTable outside c = 255 :=
  McpeLauncher.Base64.reverseTable_of_not_mem outside hc h.2.1 h.1

theorem ignored_iff (outside : UInt8 → UInt8) (hc : c < 128) :
    Ignored skipChars c ↔ reverseTable outside c = 255 ∧ isSkipped skipChars c = true := by
  refine ⟨fun h => ⟨reverseTable_ignored hc h, h.2.2⟩, fun ⟨hvalue, hskipped⟩ => ⟨?_, ?_, hskipped⟩⟩
  · exact fun htable => (McpeLauncher.Base64.reverseTable_of_mem outside htable).1 hvalue
  · rintro rfl
    exact absurd hvalue (show (64 : UInt8) ≠ 255 by decide)

theorem readDigit_skip (hc : c < 128) (h : Ignored skipChars c) (input : List UInt8) :
    readDigit outside skipChars n previous p (c :: input) =
      .read p (if input = [] then .throw "Unexpected end of input"
        else readDigit outside skipChars n previous (p + 1) input) := by
  rw [readDigit, reverseTable_ignored hc h]
  simp only [ne_eq, not_true_eq_false, if_false, if_pos h.2.2]

/-- What is skipped in front of a digit. -/
theorem readDigit_ignored (hascii : Ascii pre) (hpre : ∀ c ∈ pre, Ignored skipChars c)
    (hrest : rest ≠ []) (n : Nat) (previous : UInt8) (p : Nat) :
    readDigit outside skipChars n previous p (pre ++ rest) =
      (List.range' p pre.length ++ (readDigit outside skipChars n previous (p + pre.length) rest).1,
        (readDigit outside skipChars n previous (p + pre.length) rest).2) := by
  induction pre generalizing p with
  | nil => rfl
  | cons c pre ih =>
    obtain ⟨hc, hascii⟩ := List.forall_mem_cons.mp hascii
    obtain ⟨hignored, hpre⟩ := List.forall_mem_cons.mp hpre
    rw [List.cons_append, readDigit_skip hc hignored,
      if_neg (List.append_ne_nil_of_right_ne_nil pre hrest), ih hascii hpre, List.length_cons,
      Nat.add_assoc p, Nat.add_comm 1, List.range'_succ]
    rfl

/-- Nothing but what is skipped is left. -/
theorem readDigit_all_ignored (outside : UInt8 → UInt8) (hascii : Ascii input)
    (hall : ∀ c ∈ input, Ignored skipChars c) (hinput : input ≠ []) (n : Nat)
    (previous : UInt8) (p : Nat) :
    (∀ r ∈ (readDigit outside skipChars n previous p input).1, r < p + input.length) ∧
      ∃ what, (readDigit outside skipChars n previous p input).2 = some (.error what) := by
  induction input generalizing p with
  | nil => exact absurd rfl hinput
  | cons c input ih =>
    obtain ⟨hc, hascii⟩ := List.forall_mem_cons.mp hascii
    obtain ⟨hignored, hall⟩ := List.forall_mem_cons.mp hall
    rw [readDigit_skip hc hignored, List.length_cons]
    by_cases hinput : input = []
    · rw [if_pos hinput]
      exact ⟨fun r hr => by rw [List.mem_singleton.mp hr]; omega, _, rfl⟩
    · obtain ⟨hinside, what, hwhat⟩ := ih hascii hall hinput (p + 1)
      rw [if_neg hinput]
      refine ⟨fun r hr => ?_, what, hwhat⟩
      obtain rfl | hr := List.mem_cons.mp hr
      · omega
      · have := hinside r hr
        omega

theorem readDigit_base64_ignored (outside : UInt8 → UInt8) (hascii : Ascii pre)
    (hpre : ∀ c ∈ pre, Ignored skipChars c) (n : Nat) (previous : UInt8) (p : Nat)
    (rest : List UInt8) :
    McpeLauncher.Base64.readDigit outside skipChars n previous p (pre ++ rest) =
      McpeLauncher.Base64.readDigit outside skipChars n previous (p + pre.length) rest := by
  induction pre generalizing p with
  | nil => rfl
  | cons c pre ih =>
    obtain ⟨hc, hascii⟩ := List.forall_mem_cons.mp hascii
    obtain ⟨hignored, hpre⟩ := List.forall_mem_cons.mp hpre
    rw [List.cons_append, McpeLauncher.Base64.readDigit, reverseTable_ignored hc hignored,
      if_neg (by decide), if_pos hignored.2.2, ih hascii hpre, List.length_cons, Nat.add_assoc,
      Nat.add_comm 1]

/-- The test of a digit. -/
theorem digit_iff (outside : UInt8 → UInt8) (hc : c < 128) : Digit n previous c ↔
    reverseTable outside c ≠ 255 ∧ ¬((reverseTable outside c = 64 ∧ n < 2) ∨
      (n = 3 ∧ previous = 64 ∧ reverseTable outside c ≠ 64)) := by
  by_cases htable : c ∈ table
  · obtain ⟨hvalue, hpad⟩ := McpeLauncher.Base64.reverseTable_of_mem outside htable
    have hne := (McpeLauncher.Base64.lt_of_mem_table htable).2
    simp [Digit, htable, hvalue, hpad, hne]
  · by_cases hpad : c = 61
    · subst hpad
      have hvalue : reverseTable outside 61 = 64 := rfl
      constructor
      · rintro (⟨hmem, -⟩ | ⟨-, hn⟩)
        · exact absurd hmem htable
        · refine ⟨by rw [hvalue]; decide, ?_⟩
          rintro (⟨-, hlt⟩ | ⟨-, -, hpad⟩)
          · exact absurd hlt (Nat.not_lt.mpr hn)
          · exact hpad hvalue
      · rintro ⟨-, hvalid⟩
        exact .inr ⟨rfl, Nat.not_lt.mp fun hlt => hvalid (.inl ⟨hvalue, hlt⟩)⟩
    · have hvalue := McpeLauncher.Base64.reverseTable_of_not_mem outside hc hpad htable
      simp [Digit, htable, hpad, hvalue]

/-- Both read the next digit, or both throw if it is none. -/
theorem agrees_digit (outside : UInt8 → UInt8) (hascii : Ascii input)
    (hkept : kept skipChars input = c :: ks) (n : Nat) (previous : UInt8) (p : Nat) :
    ∃ pre rest, input = pre ++ c :: rest ∧ kept skipChars rest = ks ∧
      ∀ f g, Agrees (α := List UInt8) (p + input.length)
          ((readDigit outside skipChars n previous p input).bind f)
          ((McpeLauncher.Base64.readDigit outside skipChars n previous p input).bind g) ↔
        (Digit n previous c → Agrees (p + input.length)
          (f (reverseTable outside c, p + pre.length + 1, rest))
          (g (reverseTable outside c, p + pre.length + 1, rest))) := by
  obtain ⟨pre, rest, rfl, hpre, hc, hrest⟩ := List.filter_eq_cons_iff.mp hkept
  refine ⟨pre, rest, rfl, hrest, fun f g => ?_⟩
  have hpre : ∀ b ∈ pre, Ignored skipChars b := fun b hb => by simpa using hpre b hb
  have hignored : ¬ Ignored skipChars c := by simpa using hc
  have hlt : c < 128 := hascii c (by simp)
  have hasciiPre : Ascii pre := fun b hb => hascii b (List.mem_append_left _ hb)
  rw [readDigit_ignored hasciiPre hpre (List.cons_ne_nil c rest),
    readDigit_base64_ignored outside hasciiPre hpre, readDigit, McpeLauncher.Base64.readDigit,
    digit_iff outside hlt]
  have hinside : ∀ r ∈ List.range' p pre.length ++ [p + pre.length],
      r < p + (pre ++ c :: rest).length := by
    intro r hr
    rw [List.mem_append, List.mem_range'_1, List.mem_singleton] at hr
    rw [List.length_append, List.length_cons]
    omega
  by_cases hvalue : reverseTable outside c = 255
  · have hskipped : ¬ isSkipped skipChars c = true := fun hskipped =>
      hignored ((ignored_iff outside hlt).mpr ⟨hvalue, hskipped⟩)
    rw [if_neg (not_not.mpr hvalue), if_neg (not_not.mpr hvalue), if_neg hskipped, if_neg hskipped]
    exact iff_of_true (agrees_bind_error hinside rfl rfl) fun h => absurd hvalue h.1
  · rw [if_pos hvalue, if_pos hvalue]
    split
    · next hinvalid =>
      exact iff_of_true (agrees_bind_error hinside rfl rfl) fun h => absurd hinvalid h.2
    · next hvalid =>
      rw [agrees_bind_ok hinside rfl rfl]
      exact ⟨fun h _ => h, fun h => h ⟨hvalue, hvalid⟩⟩

/-- Where no digit is left, both throw before the second digit, but only if there is something to
skip. -/
theorem agrees_end (hascii : Ascii input) (hkept : kept skipChars input = []) (hn : n < 2)
    (hinput : input ≠ []) {f : UInt8 × Nat × List UInt8 → Outcome (List UInt8)}
    {g : UInt8 × Nat × List UInt8 → Except String (List UInt8)} :
    Agrees (p + input.length) ((readDigit outside skipChars n previous p input).bind f)
      ((McpeLauncher.Base64.readDigit outside skipChars n previous p input).bind g) := by
  have hall : ∀ c ∈ input, Ignored skipChars c := fun c hc => by
    simpa using List.filter_eq_nil_iff.mp hkept c hc
  obtain ⟨hinside, what, hwhat⟩ := readDigit_all_ignored outside hascii hall hinput n previous p
  have hbase := readDigit_base64_ignored outside hascii hall n previous p []
  rw [List.append_nil, McpeLauncher.Base64.readDigit, if_pos hn] at hbase
  exact agrees_bind_error hinside hwhat hbase

/-- A digit that is asked for at the end is read from outside. -/
theorem not_agrees_nil {f : UInt8 × Nat × List UInt8 → Outcome (List UInt8)}
    {y : Except String (List UInt8)} :
    ¬ Agrees p ((readDigit outside skipChars n previous p []).bind f) y :=
  fun h => Nat.lt_irrefl p (h.inside p (.head _))

/-- Where no digit is left, the third and the fourth digit may be missing for one decoder only. -/
theorem not_agrees_end (hascii : Ascii input) (hkept : kept skipChars input = []) (hn : 2 ≤ n)
    {f : UInt8 × Nat × List UInt8 → Outcome (List UInt8)}
    {g : UInt8 × Nat × List UInt8 → Except String (List UInt8)}
    (hg : ∀ p, ∃ out, g (64, p, []) = .ok out) :
    ¬ Agrees (p + input.length) ((readDigit outside skipChars n previous p input).bind f)
      ((McpeLauncher.Base64.readDigit outside skipChars n previous p input).bind g) := by
  by_cases hinput : input = []
  · subst hinput
    exact not_agrees_nil
  have hall : ∀ c ∈ input, Ignored skipChars c := fun c hc => by
    simpa using List.filter_eq_nil_iff.mp hkept c hc
  obtain ⟨-, what, hwhat⟩ :=
    readDigit_all_ignored outside hascii hall hinput n previous p
  have hbase := readDigit_base64_ignored outside hascii hall n previous p []
  rw [List.append_nil, McpeLauncher.Base64.readDigit, if_neg (Nat.not_lt_of_le hn)] at hbase
  obtain ⟨out, hout⟩ := hg (p + input.length)
  have hx : ((readDigit outside skipChars n previous p input).bind f).2 = some (.error what) := by
    rw [Outcome.bind, hwhat]
  rw [hbase]
  rintro ⟨-, ⟨a, ha, -⟩ | ⟨-, what', herror⟩⟩
  · cases hx.symm.trans ha
  · cases hout.symm.trans herror

end Digits

/-! ## Texts -/

theorem Outcome.bind_assoc {α β γ : Type} (x : Outcome α) (f : α → Outcome β)
    (g : β → Outcome γ) : (x.bind f).bind g = x.bind fun a => (f a).bind g := by
  obtain ⟨reads, none | what | a⟩ := x
  · rfl
  · rfl
  · simp only [Outcome.bind]
    split <;> simp only [List.append_assoc, *]

section Loop
variable {outside : UInt8 → UInt8} {skipChars input output : List UInt8} {p : Nat}

theorem decodeLoop_eq (hinput : input ≠ []) : decodeLoop outside skipChars p input output =
    (readDigit outside skipChars 0 64 p input).bind fun (i0, p, input) =>
    (readDigit outside skipChars 1 i0 p input).bind fun (i1, p, input) =>
    (readDigit outside skipChars 2 i1 p input).bind fun (i2, p, input) =>
    (readDigit outside skipChars 3 i2 p input).bind fun (i3, p, input) =>
    decodeLoop outside skipChars p input (output ++ octets i0 i1 i2 i3) := by
  have hblock : decodeLoop outside skipChars p input output =
      (readBlock outside skipChars p input).bind fun (out, p, rest) =>
        decodeLoop outside skipChars p rest (output ++ out) := by
    obtain ⟨c, input, rfl⟩ := List.exists_cons_of_ne_nil hinput
    rw [decodeLoop]
    split
    · next h => rw [h]; rfl
    · next h => rw [h]; rfl
    · next h => rw [h]; rfl
  rw [hblock]
  simp only [readBlock, Outcome.bind_assoc]
  rfl

theorem except_bind_assoc {α β γ : Type} (x : Except String α) (f : α → Except String β)
    (g : β → Except String γ) : (x.bind f).bind g = x.bind fun a => (f a).bind g := by
  cases x <;> rfl

theorem base64_decodeLoop_eq (hinput : input ≠ []) :
    McpeLauncher.Base64.decodeLoop outside skipChars p input output =
    (McpeLauncher.Base64.readDigit outside skipChars 0 64 p input).bind fun (i0, p, input) =>
    (McpeLauncher.Base64.readDigit outside skipChars 1 i0 p input).bind fun (i1, p, input) =>
    (McpeLauncher.Base64.readDigit outside skipChars 2 i1 p input).bind fun (i2, p, input) =>
    (McpeLauncher.Base64.readDigit outside skipChars 3 i2 p input).bind fun (i3, p, input) =>
    McpeLauncher.Base64.decodeLoop outside skipChars p input (output ++ octets i0 i1 i2 i3) := by
  have hblock : McpeLauncher.Base64.decodeLoop outside skipChars p input output =
      (McpeLauncher.Base64.readBlock outside skipChars p input).bind fun (out, p, rest) =>
        McpeLauncher.Base64.decodeLoop outside skipChars p rest (output ++ out) := by
    obtain ⟨c, input, rfl⟩ := List.exists_cons_of_ne_nil hinput
    rw [McpeLauncher.Base64.decodeLoop]
    split
    · next h => rw [h]; rfl
    · next h => rw [h]; rfl
  rw [hblock]
  simp only [McpeLauncher.Base64.readBlock, bind, except_bind_assoc]
  rfl

/-- Before a group there is nothing left to compare if the input ends. -/
theorem agrees_loop_nil : Agrees p (decodeLoop outside skipChars p [] output)
    (McpeLauncher.Base64.decodeLoop outside skipChars p [] output) := by
  rw [decodeLoop, McpeLauncher.Base64.decodeLoop]
  exact agrees_ret output

end Loop

/-- One character. -/
def Single (t : List UInt8) : Prop := ∃ a ∈ table, t = [a]

section Texts
variable {a b c d previous : UInt8} {t input pre skipChars : List UInt8}

theorem digit_first (n : Nat) (hn : n < 2) : Digit n previous a ↔ a ∈ table := by
  rw [Digit, and_iff_left (by omega), or_iff_left (by omega)]

theorem digit_third : Digit 2 previous c ↔ c ∈ table ∨ c = 61 := by
  rw [Digit, and_iff_left (by omega), and_iff_left (Nat.le_refl 2)]

theorem digit_fourth (outside : UInt8 → UInt8) (hc : c ∈ table ∨ c = 61) :
    Digit 3 (reverseTable outside c) d ↔ (c ∈ table ∧ (d ∈ table ∨ d = 61)) ∨ (c = 61 ∧ d = 61) := by
  obtain hc | rfl := hc
  · have hpad := (McpeLauncher.Base64.reverseTable_of_mem outside hc).2
    have hne := (McpeLauncher.Base64.lt_of_mem_table hc).2
    simp [Digit, hc, hpad, hne]
  · have hvalue : reverseTable outside 61 = 64 := rfl
    have htable : (61 : UInt8) ∉ table := by decide
    simp [Digit, hvalue, htable]

theorem group_iff (outside : UInt8 → UInt8) : Base64.Group a b c d ↔
    Digit 0 64 a ∧ Digit 1 (reverseTable outside a) b ∧ Digit 2 (reverseTable outside b) c ∧
      Digit 3 (reverseTable outside c) d := by
  rw [digit_first 0 (by omega), digit_first 1 (by omega), digit_third, Base64.Group]
  refine and_congr_right fun _ => and_congr_right fun _ => ⟨fun h => ?_, fun ⟨hc, h⟩ => ?_⟩
  · have hc : c ∈ table ∨ c = 61 := h.imp And.left And.left
    exact ⟨hc, (digit_fourth outside hc).mpr h⟩
  · exact (digit_fourth outside hc).mp h

theorem endsIgnored_append (h : input ≠ []) :
    EndsIgnored skipChars (pre ++ input) ↔ EndsIgnored skipChars input := by
  rw [EndsIgnored, List.getLast?_append_of_ne_nil pre h, EndsIgnored]

theorem not_ignored_of_kept (hkept : kept skipChars input = a :: t) : ¬ Ignored skipChars a := by
  have ha : a ∈ kept skipChars input := hkept ▸ List.mem_cons_self
  simpa using (List.mem_filter.mp ha).2

/-- Behind the last digit there is only what is skipped. -/
theorem endsIgnored_iff (hkept : kept skipChars input = []) (ha : ¬ Ignored skipChars a) :
    EndsIgnored skipChars (pre ++ a :: input) ↔ input ≠ [] := by
  by_cases hinput : input = []
  · subst hinput
    rw [EndsIgnored, List.getLast?_concat]
    exact iff_of_false (fun ⟨b, hb, hignored⟩ => ha (Option.some.inj hb ▸ hignored)) fun h => h rfl
  · rw [List.append_cons, endsIgnored_append hinput]
    refine iff_of_true ⟨input.getLast hinput, List.getLast?_eq_some_getLast hinput, ?_⟩ hinput
    simpa using List.filter_eq_nil_iff.mp hkept _ (List.getLast_mem hinput)

end Texts

section Whole
variable {outside : UInt8 → UInt8} {skipChars input : List UInt8}

/-- Neither a group that is cut nor one character at the end. -/
def Ends (skipChars input : List UInt8) : Prop :=
  ¬ Text Base64.Group Cut (kept skipChars input) ∧
    (Text Base64.Group Single (kept skipChars input) → EndsIgnored skipChars input)

theorem Single.length_eq {t : List UInt8} (h : Single t) : t.length = 1 := by
  obtain ⟨a, -, rfl⟩ := h
  rfl

theorem cut_length_lt (t : List UInt8) (h : Cut t) : t.length < 4 := by
  have := h.length_eq
  omega

theorem single_length_lt (t : List UInt8) (h : Single t) : t.length < 4 := by
  have := h.length_eq
  omega

theorem ends_short {t : List UInt8} (hkept : kept skipChars input = t) (hlen : t.length < 4) :
    Ends skipChars input ↔ ¬ Cut t ∧ (Single t → EndsIgnored skipChars input) := by
  rw [Ends, hkept, McpeLauncher.Base64.text_short_iff hlen, McpeLauncher.Base64.text_short_iff hlen]

theorem ends_two {a b : UInt8} (hkept : kept skipChars input = [a, b]) :
    Ends skipChars input ↔ ¬ (a ∈ table ∧ b ∈ table) := by
  rw [ends_short hkept (by simp), McpeLauncher.Base64.cut_two]
  exact and_iff_left fun h => absurd h.length_eq (by simp)

theorem ends_three {a b c : UInt8} (hkept : kept skipChars input = [a, b, c]) :
    Ends skipChars input ↔ ¬ (a ∈ table ∧ b ∈ table ∧ (c ∈ table ∨ c = 61)) := by
  rw [ends_short hkept (by simp), McpeLauncher.Base64.cut_three]
  exact and_iff_left fun h => absurd h.length_eq (by simp)

theorem ends_one {a : UInt8} (hkept : kept skipChars input = [a]) :
    Ends skipChars input ↔ (a ∈ table → EndsIgnored skipChars input) := by
  have hcut : ¬ Cut [a] := fun h => absurd h.length_eq (by simp)
  have hsingle : Single [a] ↔ a ∈ table :=
    ⟨fun ⟨b, hb, heq⟩ => (List.cons.inj heq).1 ▸ hb, fun ha => ⟨a, ha, rfl⟩⟩
  rw [ends_short hkept (by simp), hsingle, and_iff_right hcut]

theorem ends_nil (hkept : kept skipChars input = []) : Ends skipChars input := by
  rw [ends_short hkept (by simp)]
  exact ⟨fun h => absurd h.length_eq (by simp), fun h => absurd h.length_eq (by simp)⟩

/-- A group in front of the rest. -/
theorem ends_group {a b c d : UInt8} {pre rest ks : List UInt8}
    (hkept : kept skipChars input = a :: b :: c :: d :: ks) (hrest : kept skipChars rest = ks)
    (happend : input = pre ++ rest) :
    Ends skipChars input ↔ (Base64.Group a b c d → Ends skipChars rest) := by
  rw [Ends, hkept, McpeLauncher.Base64.text_group_iff cut_length_lt,
    McpeLauncher.Base64.text_group_iff single_length_lt, Ends, hrest]
  have hends (h : Text Base64.Group Single ks) :
      EndsIgnored skipChars input ↔ EndsIgnored skipChars rest := by
    rw [happend]
    refine endsIgnored_append ?_
    rintro rfl
    rw [← hrest] at h
    cases h with
    | last h => exact absurd h.length_eq (by simp [kept])
  constructor
  · rintro ⟨hcut, hsingle⟩ hgroup
    exact ⟨fun h => hcut ⟨hgroup, h⟩, fun h => (hends h).mp (hsingle ⟨hgroup, h⟩)⟩
  · intro h
    exact ⟨fun ⟨hgroup, hcut⟩ => (h hgroup).1 hcut, fun ⟨hgroup, hsingle⟩ =>
      (hends hsingle).mpr ((h hgroup).2 hsingle)⟩

theorem size_digit (p : Nat) (pre : List UInt8) (c : UInt8) (rest : List UInt8) :
    p + (pre ++ c :: rest).length = p + pre.length + 1 + rest.length := by
  rw [List.length_append, List.length_cons]
  omega

/-- The loops on what is left agree. -/
def LoopAgrees (outside : UInt8 → UInt8) (skipChars : List UInt8) (p : Nat)
    (input output : List UInt8) : Prop :=
  Agrees (p + input.length) (decodeLoop outside skipChars p input output)
    (McpeLauncher.Base64.decodeLoop outside skipChars p input output)

section Loop
variable {a b c d : UInt8} {t output : List UInt8} {p : Nat}

theorem ne_nil_of_kept (hkept : kept skipChars input = a :: t) : input ≠ [] := by
  rintro rfl
  cases hkept

theorem base64_decodeLoop_nil (outside : UInt8 → UInt8) (output : List UInt8) (p : Nat) :
    McpeLauncher.Base64.decodeLoop outside skipChars p [] output = .ok output := by
  rw [McpeLauncher.Base64.decodeLoop]

theorem loopAgrees_one (hascii : Ascii input) (hkept : kept skipChars input = [a]) :
    LoopAgrees outside skipChars p input output ↔ Ends skipChars input := by
  obtain ⟨pre, rest, hinput, hrest, h0⟩ := agrees_digit outside hascii hkept 0 64 p
  have hascii' : Ascii rest := fun c hc => hascii c (by simp [hinput, hc])
  have hne := ne_nil_of_kept hkept
  rw [LoopAgrees, decodeLoop_eq hne, base64_decodeLoop_eq hne, h0, digit_first 0 (by omega),
    ends_one hkept, hinput, endsIgnored_iff hrest (not_ignored_of_kept hkept), size_digit]
  refine forall_congr' fun _ => ?_
  by_cases hnil : rest = []
  · subst hnil
    exact iff_of_false not_agrees_nil fun h => h rfl
  · exact iff_of_true (agrees_end hascii' hrest (by omega) hnil) hnil

/-- Both loops from the third digit of a group on. -/
def ThirdAgrees (outside : UInt8 → UInt8) (skipChars : List UInt8) (i0 i1 : UInt8) (p : Nat)
    (input output : List UInt8) : Prop :=
  Agrees (p + input.length)
    ((readDigit outside skipChars 2 i1 p input).bind fun (i2, p, input) =>
      (readDigit outside skipChars 3 i2 p input).bind fun (i3, p, input) =>
      decodeLoop outside skipChars p input (output ++ octets i0 i1 i2 i3))
    ((McpeLauncher.Base64.readDigit outside skipChars 2 i1 p input).bind fun (i2, p, input) =>
      (McpeLauncher.Base64.readDigit outside skipChars 3 i2 p input).bind fun (i3, p, input) =>
      McpeLauncher.Base64.decodeLoop outside skipChars p input (output ++ octets i0 i1 i2 i3))

/-- The first two digits are not missing. -/
theorem loopAgrees_third (outside : UInt8 → UInt8) (hascii : Ascii input)
    (hkept : kept skipChars input = a :: b :: t) (p : Nat) (output : List UInt8) :
    ∃ pre rest p', input = pre ++ rest ∧ rest.length < input.length ∧ kept skipChars rest = t ∧
      (LoopAgrees outside skipChars p input output ↔ (a ∈ table → b ∈ table →
        ThirdAgrees outside skipChars (reverseTable outside a) (reverseTable outside b) p' rest
          output)) := by
  obtain ⟨pre0, rest0, hinput, hrest0, h0⟩ := agrees_digit outside hascii hkept 0 64 p
  have hascii0 : Ascii rest0 := fun c hc => hascii c (by simp [hinput, hc])
  obtain ⟨pre1, rest, rfl, hrest, h1⟩ :=
    agrees_digit outside hascii0 hrest0 1 (reverseTable outside a) (p + pre0.length + 1)
  have hne := ne_nil_of_kept hkept
  refine ⟨pre0 ++ a :: (pre1 ++ [b]), rest, p + pre0.length + 1 + pre1.length + 1, by simp [hinput],
    by simp [hinput]; omega, hrest, ?_⟩
  rw [LoopAgrees, decodeLoop_eq hne, base64_decodeLoop_eq hne, h0, digit_first 0 (by omega), hinput,
    size_digit, h1, digit_first 1 (by omega), size_digit]
  rfl

theorem loopAgrees_two (hascii : Ascii input) (hkept : kept skipChars input = [a, b]) :
    LoopAgrees outside skipChars p input output ↔ Ends skipChars input := by
  obtain ⟨pre, rest, p', happend, -, hrest, hloop⟩ := loopAgrees_third outside hascii hkept p output
  have hascii' : Ascii rest := fun c hc => hascii c (by simp [happend, hc])
  rw [hloop, ends_two hkept, not_and]
  refine forall_congr' fun _ => forall_congr' fun _ => iff_false_intro ?_
  -- the fourth digit is missing too
  exact not_agrees_end hascii' hrest (Nat.le_refl 2) fun p => ⟨_, base64_decodeLoop_nil outside _ p⟩

theorem loopAgrees_three (hascii : Ascii input) (hkept : kept skipChars input = [a, b, c]) :
    LoopAgrees outside skipChars p input output ↔ Ends skipChars input := by
  obtain ⟨pre, rest, p', happend, -, hrest, hloop⟩ := loopAgrees_third outside hascii hkept p output
  have hascii' : Ascii rest := fun c hc => hascii c (by simp [happend, hc])
  obtain ⟨pre2, rest2, rfl, hrest2, h2⟩ :=
    agrees_digit outside hascii' hrest 2 (reverseTable outside b) p'
  have hascii2 : Ascii rest2 := fun c hc => hascii' c (by simp [hc])
  rw [hloop, ends_three hkept, ThirdAgrees, h2, digit_third, size_digit, not_and, not_and]
  refine forall_congr' fun _ => forall_congr' fun _ => forall_congr' fun _ => iff_false_intro ?_
  exact not_agrees_end hascii2 hrest2 (Nat.le_succ 2) fun p =>
    ⟨_, base64_decodeLoop_nil outside _ p⟩

theorem loopAgrees_group (outside : UInt8 → UInt8) (hascii : Ascii input)
    (hkept : kept skipChars input = a :: b :: c :: d :: t) (p : Nat) (output : List UInt8) :
    ∃ pre rest p' out, input = pre ++ rest ∧ rest.length < input.length ∧
      kept skipChars rest = t ∧ (LoopAgrees outside skipChars p input output ↔
        (Base64.Group a b c d → LoopAgrees outside skipChars p' rest out)) := by
  obtain ⟨pre, rest, p', rfl, -, hrest, hloop⟩ := loopAgrees_third outside hascii hkept p output
  have hascii' : Ascii rest := fun c hc => hascii c (List.mem_append_right _ hc)
  obtain ⟨pre2, rest2, rfl, hrest2, h2⟩ :=
    agrees_digit outside hascii' hrest 2 (reverseTable outside b) p'
  have hascii2 : Ascii rest2 := fun c hc => hascii' c (by simp [hc])
  obtain ⟨pre3, rest3, rfl, hrest3, h3⟩ := agrees_digit outside hascii2 hrest2 3
    (reverseTable outside c) (p' + pre2.length + 1)
  refine ⟨pre ++ (pre2 ++ c :: (pre3 ++ [d])), rest3, p' + pre2.length + 1 + pre3.length + 1,
    output ++ octets (reverseTable outside a) (reverseTable outside b) (reverseTable outside c)
      (reverseTable outside d), by simp, by simp; omega, hrest3, ?_⟩
  rw [hloop, ThirdAgrees, h2, size_digit, h3, size_digit, group_iff outside, and_imp, and_imp,
    and_imp, digit_first 0 (by omega), digit_first 1 (by omega)]
  rfl

/-- The loops agree if the text ends behind a group. -/
theorem loopAgrees_iff (outside : UInt8 → UInt8) (hascii : Ascii input) (p : Nat)
    (output : List UInt8) :
    LoopAgrees outside skipChars p input output ↔ Ends skipChars input := by
  induction hlength : input.length using Nat.strongRecOn generalizing p input output with
  | _ length ih =>
    match hkept : kept skipChars input with
    | [] =>
      by_cases hinput : input = []
      · subst hinput
        exact iff_of_true agrees_loop_nil (ends_nil rfl)
      · rw [LoopAgrees, decodeLoop_eq hinput, base64_decodeLoop_eq hinput]
        exact iff_of_true (agrees_end hascii hkept (by omega) hinput) (ends_nil hkept)
    | [_] => exact loopAgrees_one hascii hkept
    | [_, _] => exact loopAgrees_two hascii hkept
    | [_, _, _] => exact loopAgrees_three hascii hkept
    | _ :: _ :: _ :: _ :: _ =>
      obtain ⟨pre, rest, p', out, happend, hlt, hrest, hloop⟩ :=
        loopAgrees_group outside hascii hkept p output
      have hasciiRest : Ascii rest := fun c hc => hascii c (by simp [happend, hc])
      rw [hloop, ih _ (hlength ▸ hlt) hasciiRest p' out rfl, ends_group hkept hrest happend]

end Loop

end Whole

/-- The decoders agree on the ASCII texts that do not end with a group that is cut, nor behind the
first character of a group. -/
theorem decode_agrees_iff (outside : UInt8 → UInt8) (skipChars input : List UInt8)
    (hascii : Ascii input) :
    Agrees input.length (decode outside skipChars input)
      (McpeLauncher.Base64.decode outside skipChars input) ↔
    ¬ Text Base64.Group Cut (kept skipChars input) ∧
      (Text Base64.Group Single (kept skipChars input) → EndsIgnored skipChars input) := by
  have hloop : LoopAgrees outside skipChars 0 input [] ↔ Ends skipChars input :=
    loopAgrees_iff outside hascii 0 []
  rwa [LoopAgrees, Nat.zero_add] at hloop

/-- A whole group with a line break in it. -/
theorem decode_agrees_group : Agrees 5 (decode id lineBreaks [81, 85, 10, 74, 68])
    (McpeLauncher.Base64.decode id lineBreaks [81, 85, 10, 74, 68]) := by
  have hkept : kept lineBreaks [81, 85, 10, 74, 68] = [81, 85, 74, 68] := by decide
  have hascii : Ascii [81, 85, 10, 74, 68] := by simp [Ascii]
  refine (decode_agrees_iff id lineBreaks _ hascii).mpr ?_
  rw [hkept, McpeLauncher.Base64.text_group_iff cut_length_lt,
    McpeLauncher.Base64.text_group_iff single_length_lt]
  constructor
  · rintro ⟨-, ⟨h⟩⟩
    exact absurd h.length_eq (by simp)
  · rintro ⟨-, ⟨h⟩⟩
    exact absurd h.length_eq (by simp)

/-- Behind two characters the other decoder adds the missing ones, and this one reads on. -/
theorem decode_cut : Ascii [81, 85] ∧
    McpeLauncher.Base64.decode id lineBreaks [81, 85] = .ok [65] ∧
    decode id lineBreaks [81, 85] = ([0, 1, 2, 3], none) ∧
    ¬ Agrees 2 (decode id lineBreaks [81, 85])
      (McpeLauncher.Base64.decode id lineBreaks [81, 85]) := by
  have hdecode : decode id lineBreaks [81, 85] = ([0, 1, 2, 3], none) := by
    rw [decode, decodeLoop_eq (by simp)]
    rfl
  have hbase : McpeLauncher.Base64.decode id lineBreaks [81, 85] = .ok [65] := by
    rw [McpeLauncher.Base64.decode, base64_decodeLoop_eq (by simp)]
    exact base64_decodeLoop_nil id _ 2
  refine ⟨by simp [Ascii], hbase, hdecode, fun h => ?_⟩
  rw [hdecode] at h
  exact absurd (h.inside 2 (by simp)) (by decide)

end McpeLauncher.PlayApi.Base64
