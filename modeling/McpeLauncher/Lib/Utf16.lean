import McpeLauncher.Lib.Utf8

/-!
# UTF-16

The units of a text, and the conversion of units to UTF-8, which fails at a surrogate that has no
partner.
-/

namespace Utf16

/-- The units of a character: one, or two surrogates. -/
def units (c : Char) : List Nat :=
  if c.toNat < 0x10000 then [c.toNat]
  else [0xd800 + (c.toNat - 0x10000) / 0x400, 0xdc00 + (c.toNat - 0x10000) % 0x400]

def encode (cs : List Char) : List Nat := cs.flatMap units

def isLead (u : Nat) : Bool := 0xd800 ≤ u && u < 0xdc00

def isTrail (u : Nat) : Bool := 0xdc00 ≤ u && u < 0xe000

/-- `to_bytes` of a `wstring_convert` with `codecvt_utf8_utf16`; none if it throws. -/
def toBytes : List Nat → Option (List UInt8)
  | [] => some []
  | u :: us =>
    if isLead u then
      match us with
      | [] => none
      | v :: us =>
        if isTrail v then
          (toBytes us).map
            (String.utf8EncodeChar (Char.ofNat (0x10000 + (u - 0xd800) * 0x400 + (v - 0xdc00))) ++ ·)
        else none
    else if isTrail u then none
    else (toBytes us).map (String.utf8EncodeChar (Char.ofNat u) ++ ·)

@[simp] theorem encode_nil : encode [] = [] := rfl

@[simp] theorem encode_cons (c : Char) (cs : List Char) : encode (c :: cs) = units c ++ encode cs :=
  rfl

/-- A character is no surrogate. -/
theorem toNat_cases (c : Char) : c.toNat < 0xd800 ∨ 0xe000 ≤ c.toNat ∧ c.toNat < 0x110000 := by
  obtain h | h := c.valid
  · exact .inl h
  · exact .inr ⟨h.1, h.2⟩

/-- The conversion of a character and of what follows it. -/
theorem toBytes_units_append (c : Char) (us : List Nat) :
    toBytes (units c ++ us) = (toBytes us).map (String.utf8EncodeChar c ++ ·) := by
  have hc := toNat_cases c
  rw [units]
  split
  · rename_i hbmp
    have hlead : isLead c.toNat = false := by
      simp only [isLead, Bool.and_eq_false_iff, decide_eq_false_iff_not]
      omega
    have htrail : isTrail c.toNat = false := by
      simp only [isTrail, Bool.and_eq_false_iff, decide_eq_false_iff_not]
      omega
    rw [List.singleton_append, toBytes.eq_def]
    simp only [hlead, htrail, Char.ofNat_toNat, Bool.false_eq_true, if_false]
  · rename_i hhigh
    have hlead : isLead (0xd800 + (c.toNat - 0x10000) / 0x400) = true := by
      simp only [isLead, Bool.and_eq_true, decide_eq_true_eq]
      omega
    have htrail : isTrail (0xdc00 + (c.toNat - 0x10000) % 0x400) = true := by
      simp only [isTrail, Bool.and_eq_true, decide_eq_true_eq]
      omega
    have hvalue : 0x10000 + (0xd800 + (c.toNat - 0x10000) / 0x400 - 0xd800) * 0x400 +
        (0xdc00 + (c.toNat - 0x10000) % 0x400 - 0xdc00) = c.toNat := by omega
    rw [List.cons_append, List.singleton_append, toBytes.eq_def]
    simp only [hlead, htrail, hvalue, Char.ofNat_toNat, if_true]

/-- The units of a text are converted to its UTF-8 form. -/
theorem toBytes_encode (cs : List Char) : toBytes (encode cs) = some (Utf8.encode cs) := by
  induction cs with
  | nil => rfl
  | cons c cs ih =>
    rw [encode_cons, toBytes_units_append, ih]
    rfl

/-! ## Lengths -/

/-- A character has at most as many units as it has bytes, and as many only if it has one. -/
theorem units_length_cases (c : Char) :
    (units c).length < c.utf8Size ∨ (units c).length = 1 ∧ c.utf8Size = 1 := by
  have hone : (units c).length = if c.toNat < 0x10000 then 1 else 2 := by
    rw [units]
    split <;> rfl
  have hsize : c.utf8Size = 1 ↔ c.toNat ≤ 127 := Char.utf8Size_eq_one_iff
  have hthree : c.utf8Size ≤ 3 → c.toNat < 0x10000 := by
    intro h
    by_contra hlarge
    have hval : ¬c.val ≤ 0xffff := fun hle => hlarge (Nat.lt_succ_of_le (UInt32.le_iff_toNat_le.mp hle))
    simp only [Char.utf8Size] at h
    split at h
    · rename_i hle
      exact hval (UInt32.le_trans hle (by decide))
    split at h
    · rename_i hle
      exact hval (UInt32.le_trans hle (by decide))
    split at h
    · contradiction
    · omega
  have hpos := c.utf8Size_pos
  rw [hone]
  split <;> omega

theorem encode_length_le (cs : List Char) : (encode cs).length ≤ (Utf8.encode cs).length := by
  induction cs with
  | nil => exact Nat.le_refl 0
  | cons c cs ih =>
    have hc := units_length_cases c
    rw [encode_cons, Utf8.encode_cons, List.length_append, List.length_append,
      String.length_utf8EncodeChar]
    omega

/-- A text with as many units as bytes has one byte for each character. -/
theorem utf8Size_of_length_eq {cs : List Char} (h : (encode cs).length = (Utf8.encode cs).length) :
    ∀ c ∈ cs, c.utf8Size = 1 := by
  induction cs with
  | nil => exact fun c hc => by cases hc
  | cons c cs ih =>
    have hc := units_length_cases c
    have hle := encode_length_le cs
    rw [encode_cons, Utf8.encode_cons, List.length_append, List.length_append,
      String.length_utf8EncodeChar] at h
    intro d hd
    obtain rfl | hd := List.mem_cons.mp hd
    · omega
    · exact ih (by omega) d hd

end Utf16
