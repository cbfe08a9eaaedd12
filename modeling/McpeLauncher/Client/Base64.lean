import Mathlib.Data.List.GetD
import Mathlib.Data.List.Nodup

/-!
# Base64

The codec of the `base64` library. A byte from 128 on is a negative `char`, and `decode` looks it up
outside of the reverse table; what it finds there is a parameter.
-/

namespace McpeLauncher.Base64

def table : List UInt8 :=
  "ABCDEFGHIJKLMNOPQRSTUVWXYZabcdefghijklmnopqrstuvwxyz0123456789+/".toList.map
    fun c => UInt8.ofNat c.toNat

/-! ## Encoding -/

/-- The four sextets of the bytes `i0`, `i1` and `i2`. -/
def n0 (i0 : UInt8) : UInt8 := i0 >>> 2 &&& 0x3f

def n1 (i0 i1 : UInt8) : UInt8 := (i0 &&& 3) <<< 4 ||| (i1 >>> 4 &&& 0xf)

def n2 (i1 i2 : UInt8) : UInt8 := (i1 &&& 0xf) <<< 2 ||| (i2 >>> 6 &&& 3)

def n3 (i2 : UInt8) : UInt8 := i2 &&& 0x3f

def letter (n : UInt8) : UInt8 := table.getD n.toNat 0

/-- The padding, where it is wanted. -/
def pad (padded : Bool) (n : Nat) : List UInt8 := if padded then List.replicate n 61 else []

/-- Blocks of three bytes. In the last block the missing ones count as 0. -/
def encode (padded : Bool) : List UInt8 → List UInt8
  | [] => []
  | [i0] => letter (n0 i0) :: letter (n1 i0 0) :: pad padded 2
  | [i0, i1] => letter (n0 i0) :: letter (n1 i0 i1) :: letter (n2 i1 0) :: pad padded 1
  | i0 :: i1 :: i2 :: input =>
    letter (n0 i0) :: letter (n1 i0 i1) :: letter (n2 i1 i2) :: letter (n3 i2) ::
      encode padded input

/-! ## Decoding -/

section Decode
variable (outside : UInt8 → UInt8) (skipChars : List UInt8)

/-- `reverseTable`, as `initReverseTable` fills it. -/
def reverseTable (c : UInt8) : UInt8 :=
  if c ≥ 128 then outside c
  else if c = 61 then 64
  else
    match table.idxOf? c with
    | some i => UInt8.ofNat i
    | none => 255

/-- `strchr(skip_chars, c)`, which also finds the terminating zero. -/
def isSkipped (c : UInt8) : Bool := c = 0 || c ∈ skipChars

/-- The loop that reads `i[n]`. `input` is what is left from the position `p` on. -/
def readDigit (n : Nat) (previous : UInt8) (p : Nat) (input : List UInt8) :
    Except String (UInt8 × Nat × List UInt8) :=
  match input with
  | [] => if n < 2 then .error "Unexpected end of input" else .ok (64, p, [])
  | c :: input =>
    let i := reverseTable outside c
    if i ≠ 255 then
      if (i = 64 ∧ n < 2) ∨ (n = 3 ∧ previous = 64 ∧ i ≠ 64) then .error "Invalid '=' character"
      else .ok (i, p + 1, input)
    else if isSkipped skipChars c then readDigit n previous (p + 1) input
    else .error ("Invalid character at " ++ toString p)

/-- The bytes that four digits stand for; 64 is a missing digit. -/
def octets (i0 i1 i2 i3 : UInt8) : List UInt8 :=
  [i0 <<< 2 ||| (i1 >>> 4 &&& 3)] ++
  (if i2 ≠ 64 then [(i1 &&& 0xf) <<< 4 ||| (i2 >>> 2 &&& 0xf)] else []) ++
  (if i2 ≠ 64 ∧ i3 ≠ 64 then [(i2 &&& 3) <<< 6 ||| i3] else [])

/-- One round of the loop of `decode`: four digits. -/
def readBlock (p : Nat) (input : List UInt8) : Except String (List UInt8 × Nat × List UInt8) := do
  let (i0, p, input) ← readDigit outside skipChars 0 64 p input
  let (i1, p, input) ← readDigit outside skipChars 1 i0 p input
  let (i2, p, input) ← readDigit outside skipChars 2 i1 p input
  let (i3, p, input) ← readDigit outside skipChars 3 i2 p input
  return (octets i0 i1 i2 i3, p, input)

variable {outside skipChars}

theorem readDigit_length (h : readDigit outside skipChars n previous p input = .ok (i, p', rest)) :
    rest.length ≤ input.length ∧ (n < 2 → rest.length < input.length) := by
  induction input generalizing p with
  | nil =>
    rw [readDigit] at h
    split at h
    · cases h
    · next hn =>
      cases h
      exact ⟨Nat.le_refl _, fun hlt => absurd hlt hn⟩
  | cons c input ih =>
    rw [readDigit] at h
    split at h
    · split at h
      · cases h
      · cases h
        exact ⟨Nat.le_succ _, fun _ => Nat.lt_succ_self _⟩
    · split at h
      · obtain ⟨hle, -⟩ := ih h
        exact ⟨Nat.le_succ_of_le hle, fun _ => Nat.lt_succ_of_le hle⟩
      · cases h

/-- The first digit of a block is never missing. -/
theorem readBlock_length (h : readBlock outside skipChars p input = .ok (out, p', rest)) :
    rest.length < input.length := by
  simp only [readBlock, bind, Except.bind] at h
  split at h
  · cases h
  · next h0 =>
    split at h
    · cases h
    · next h1 =>
      split at h
      · cases h
      · next h2 =>
        split at h
        · cases h
        · next h3 =>
          cases h
          have hlt := (readDigit_length h0).2 (by omega)
          have hle1 := (readDigit_length h1).1
          have hle2 := (readDigit_length h2).1
          have hle3 := (readDigit_length h3).1
          omega

variable (outside skipChars)

def decodeLoop (p : Nat) (input output : List UInt8) : Except String (List UInt8) :=
  match input with
  | [] => .ok output
  | c :: input =>
    match _h : readBlock outside skipChars p (c :: input) with
    | .error what => .error what
    | .ok (out, p, rest) => decodeLoop p rest (output ++ out)
termination_by input.length
decreasing_by exact readBlock_length ‹_›

def decode (input : List UInt8) : Except String (List UInt8) :=
  decodeLoop outside skipChars 0 input []

end Decode

/-! ## Decoding what was encoded -/

theorem eq_of_bits {x y : UInt8} (h : ∀ i < 8, x.toBitVec.getLsbD i = y.toBitVec.getLsbD i) :
    x = y :=
  UInt8.toBitVec_inj.mp (BitVec.eq_of_getLsbD_eq h)

theorem forall_bit {p : Nat → Prop} (h : p 0 ∧ p 1 ∧ p 2 ∧ p 3 ∧ p 4 ∧ p 5 ∧ p 6 ∧ p 7) :
    ∀ i < 8, p i := by
  obtain ⟨h0, h1, h2, h3, h4, h5, h6, h7⟩ := h
  intro i hi
  match i with
  | 0 => exact h0
  | 1 => exact h1
  | 2 => exact h2
  | 3 => exact h3
  | 4 => exact h4
  | 5 => exact h5
  | 6 => exact h6
  | 7 => exact h7

/-- The bytes come back from their sextets. -/
theorem octets_eq (i0 i1 i2 : UInt8) : n0 i0 <<< 2 ||| (n1 i0 i1 >>> 4 &&& 3) = i0 ∧
    (n1 i0 i1 &&& 0xf) <<< 4 ||| (n2 i1 i2 >>> 2 &&& 0xf) = i1 ∧
    (n2 i1 i2 &&& 3) <<< 6 ||| n3 i2 = i2 := by
  refine ⟨?_, ?_, ?_⟩
  all_goals
    refine eq_of_bits (forall_bit ?_)
    simp [n0, n1, n2, n3]

/-- Only the six low bits are set. -/
def IsSextet (n : UInt8) : Prop := n &&& 0x3f = n

theorem isSextet (i0 i1 i2 : UInt8) :
    IsSextet (n0 i0) ∧ IsSextet (n1 i0 i1) ∧ IsSextet (n2 i1 i2) ∧ IsSextet (n3 i2) := by
  refine ⟨?_, ?_, ?_, ?_⟩
  all_goals
    refine eq_of_bits (forall_bit ?_)
    simp [n0, n1, n2, n3]

theorem IsSextet.toNat_lt (h : IsSextet n) : n.toNat < 64 := by
  have hle : n.toNat &&& 63 ≤ 63 := Nat.and_le_right
  have heq : (n &&& 0x3f).toNat = n.toNat := congrArg UInt8.toNat h
  rw [UInt8.toNat_and] at heq
  exact Nat.lt_succ_of_le (heq ▸ hle)

theorem IsSextet.ne (h : IsSextet n) : n ≠ 64 ∧ n ≠ 255 := by
  have hlt := h.toNat_lt
  constructor
  · rintro rfl
    exact absurd hlt (by decide)
  · rintro rfl
    exact absurd hlt (by decide)

theorem table_length : table.length = 64 := rfl

theorem table_ascii : table.all (fun c => c < 128 && c != 61) = true := by decide +kernel

theorem table_nodup : table.Nodup := by decide +kernel

section
variable {outside : UInt8 → UInt8} {skipChars : List UInt8}

theorem reverseTable_letter (h : IsSextet n) : reverseTable outside (letter n) = n := by
  have hlen : n.toNat < table.length := by
    rw [table_length]
    exact h.toNat_lt
  have hget : letter n = table[n.toNat] := List.getD_eq_getElem table 0 hlen
  have hascii := List.all_eq_true.mp table_ascii _ (List.getElem_mem hlen)
  rw [← hget, Bool.and_eq_true, decide_eq_true_eq, bne_iff_ne] at hascii
  have hidx : table.idxOf? (letter n) = some n.toNat := by
    refine List.idxOf?_eq_some_iff.mpr ⟨hlen, hget.symm, fun j hj heq => Nat.ne_of_lt hj ?_⟩
    exact table_nodup.getElem_inj_iff.mp (heq.trans hget)
  rw [reverseTable, if_neg (UInt8.not_le.mpr hascii.1), if_neg hascii.2, hidx]
  exact UInt8.ofNat_toNat

theorem readDigit_letter (h : IsSextet i) (hprevious : n = 3 → previous ≠ 64) :
    readDigit outside skipChars n previous p (letter i :: input) = .ok (i, p + 1, input) := by
  have hvalid : ¬((i = 64 ∧ n < 2) ∨ (n = 3 ∧ previous = 64 ∧ i ≠ 64)) := by
    rintro (⟨hi, -⟩ | ⟨hn, hp, -⟩)
    · exact h.ne.1 hi
    · exact hprevious hn hp
  rw [readDigit, reverseTable_letter h]
  simp only [h.ne.2, ne_eq, not_false_eq_true, if_true, if_neg hvalid]

theorem readDigit_pad (hn : 2 ≤ n) :
    readDigit outside skipChars n previous p (61 :: input) = .ok (64, p + 1, input) := by
  have hpad : reverseTable outside 61 = 64 := rfl
  have hvalid : ¬(((64 : UInt8) = 64 ∧ n < 2) ∨ (n = 3 ∧ previous = 64 ∧ (64 : UInt8) ≠ 64)) := by
    rintro (⟨-, hlt⟩ | ⟨-, -, hne⟩)
    · omega
    · exact hne rfl
  rw [readDigit, hpad, if_pos (by decide), if_neg hvalid]

theorem readDigit_end (hn : 2 ≤ n) :
    readDigit outside skipChars n previous p [] = .ok (64, p, []) := by
  rw [readDigit, if_neg (Nat.not_lt_of_le hn)]

/-- A digit that is missing at the end, with or without padding. -/
theorem readDigit_missing (padded : Bool) (k : Nat) (hn : 2 ≤ n) : ∃ p',
    readDigit outside skipChars n previous p (pad padded (k + 1)) = .ok (64, p', pad padded k) := by
  cases padded with
  | false => exact ⟨p, readDigit_end hn⟩
  | true => exact ⟨p + 1, readDigit_pad hn⟩

theorem readBlock_of_digits (h0 : readDigit outside skipChars 0 64 p input = .ok (i0, p0, input0))
    (h1 : readDigit outside skipChars 1 i0 p0 input0 = .ok (i1, p1, input1))
    (h2 : readDigit outside skipChars 2 i1 p1 input1 = .ok (i2, p2, input2))
    (h3 : readDigit outside skipChars 3 i2 p2 input2 = .ok (i3, p3, input3)) :
    readBlock outside skipChars p input = .ok (octets i0 i1 i2 i3, p3, input3) := by
  simp only [readBlock, h0, h1, h2, h3, bind, Except.bind, pure, Except.pure]

theorem readBlock_full (i0 i1 i2 : UInt8) :
    readBlock outside skipChars p (letter (n0 i0) :: letter (n1 i0 i1) :: letter (n2 i1 i2) ::
      letter (n3 i2) :: input) = .ok ([i0, i1, i2], p + 4, input) := by
  obtain ⟨h0, h1, h2, h3⟩ := isSextet i0 i1 i2
  obtain ⟨e0, e1, e2⟩ := octets_eq i0 i1 i2
  rw [readBlock_of_digits (readDigit_letter h0 (by omega)) (readDigit_letter h1 (by omega))
    (readDigit_letter h2 (by omega)) (readDigit_letter h3 fun _ => h2.ne.1)]
  rw [octets, if_pos h2.ne.1, if_pos ⟨h2.ne.1, h3.ne.1⟩, e0, e1, e2]
  rfl

theorem readBlock_two (i0 i1 : UInt8) (padded : Bool) : ∃ p',
    readBlock outside skipChars p (letter (n0 i0) :: letter (n1 i0 i1) :: letter (n2 i1 0) ::
      pad padded 1) = .ok ([i0, i1], p', []) := by
  obtain ⟨h0, h1, h2, -⟩ := isSextet i0 i1 0
  obtain ⟨e0, e1, -⟩ := octets_eq i0 i1 0
  obtain ⟨p', h3⟩ := readDigit_missing (n := 3) padded 0 (by omega)
  refine ⟨p', ?_⟩
  rw [readBlock_of_digits (readDigit_letter h0 (by omega)) (readDigit_letter h1 (by omega))
    (readDigit_letter h2 (by omega)) h3, octets, if_pos h2.ne.1, if_neg fun h => h.2 rfl, e0, e1]
  cases padded <;> rfl

theorem readBlock_one (i0 : UInt8) (padded : Bool) : ∃ p',
    readBlock outside skipChars p (letter (n0 i0) :: letter (n1 i0 0) :: pad padded 2) =
      .ok ([i0], p', []) := by
  obtain ⟨h0, h1, -⟩ := isSextet i0 0 0
  obtain ⟨e0, -⟩ := octets_eq i0 0 0
  obtain ⟨p', h2⟩ := readDigit_missing (n := 2) padded 1 (by omega)
  obtain ⟨p'', h3⟩ := readDigit_missing (n := 3) padded 0 (by omega)
  refine ⟨p'', ?_⟩
  rw [readBlock_of_digits (readDigit_letter h0 (by omega)) (readDigit_letter h1 (by omega)) h2 h3,
    octets, if_neg fun h => h rfl, if_neg fun h => h.1 rfl, e0]
  cases padded <;> rfl

theorem decodeLoop_cons (h : readBlock outside skipChars p (c :: input) = .ok (out, p', rest)) :
    decodeLoop outside skipChars p (c :: input) output =
      decodeLoop outside skipChars p' rest (output ++ out) := by
  rw [decodeLoop]
  split
  · next he => rw [h] at he; cases he
  · next hok =>
    rw [h] at hok
    cases hok
    rfl

theorem decodeLoop_encode (padded : Bool) (input : List UInt8) :
    decodeLoop outside skipChars p (encode padded input) output = .ok (output ++ input) := by
  induction input using encode.induct generalizing p output with
  | case1 => rw [encode, decodeLoop, List.append_nil]
  | case2 i0 =>
    obtain ⟨p', h⟩ := readBlock_one (p := p) i0 padded
    rw [encode, decodeLoop_cons h, decodeLoop]
  | case3 i0 i1 =>
    obtain ⟨p', h⟩ := readBlock_two (p := p) i0 i1 padded
    rw [encode, decodeLoop_cons h, decodeLoop]
  | case4 i0 i1 i2 input ih =>
    rw [encode, decodeLoop_cons (readBlock_full i0 i1 i2), ih, List.append_assoc]
    rfl

/-- **Decoding gives back what was encoded**, with or without padding. -/
theorem decode_encode (padded : Bool) (input : List UInt8) :
    decode outside skipChars (encode padded input) = .ok input := by
  rw [decode, decodeLoop_encode, List.nil_append]

end

end McpeLauncher.Base64
