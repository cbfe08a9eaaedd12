import Mathlib.Data.List.Basic

/-!
# Positions in UTF-8 text

The UTF-8 encoding of a list of characters, and the byte offsets in it at which a character begins
or the text ends. `Offset cs i k` says that `i` is such an offset, with `k` characters before it.
-/

namespace Utf8

/-- The UTF-8 encoding of a text. -/
def encode (cs : List Char) : List UInt8 := cs.flatMap String.utf8EncodeChar

/-- The bytes after the first one of a character. -/
def isContinuation (b : UInt8) : Bool := b &&& 0b11000000 == 0b10000000

def isAscii (b : UInt8) : Bool := b &&& 0b10000000 == 0

@[simp] theorem encode_nil : encode [] = [] := rfl

@[simp] theorem encode_cons (c : Char) (cs : List Char) :
    encode (c :: cs) = String.utf8EncodeChar c ++ encode cs := rfl

@[simp] theorem encode_append (cs cs' : List Char) :
    encode (cs ++ cs') = encode cs ++ encode cs' := by
  simp [encode]

/-! ## The bytes of a character -/

/-- The bytes of one character, by the pattern of the first one. -/
inductive CharBytes : List UInt8 → Prop
  | one (x : UInt8) : isAscii x = true → CharBytes [x]
  | two (x y : UInt8) : CharBytes [x &&& 0x1f ||| 0xc0, y &&& 0x3f ||| 0x80]
  | three (x y z : UInt8) :
      CharBytes [x &&& 0x0f ||| 0xe0, y &&& 0x3f ||| 0x80, z &&& 0x3f ||| 0x80]
  | four (x y z t : UInt8) : CharBytes
      [x &&& 0x07 ||| 0xf0, y &&& 0x3f ||| 0x80, z &&& 0x3f ||| 0x80, t &&& 0x3f ||| 0x80]

theorem charBytes_encodeChar (c : Char) : CharBytes (String.utf8EncodeChar c) := by
  rw [String.utf8EncodeChar_eq_utf8EncodeCharFast, String.utf8EncodeCharFast]
  split
  · next h =>
    refine .one _ ?_
    have hall : ∀ b : BitVec 8, b.toNat < 128 → b &&& 0b10000000 = 0 := by decide
    have hlt : c.val.toUInt8.toBitVec.toNat < 128 := by
      have : c.val.toNat ≤ 127 := h
      change c.val.toUInt8.toNat < 128
      rw [UInt32.toNat_toUInt8]
      omega
    rw [isAscii, beq_iff_eq]
    exact UInt8.eq_of_toBitVec_eq (hall _ hlt)
  · split
    · exact .two ..
    · split
      · exact .three ..
      · exact .four ..

/-- A statement about masked bytes holds if it holds of all bit vectors. -/
theorem forall_byte {p : UInt8 → Prop} (h : ∀ b : BitVec 8, p ⟨b⟩) (x : UInt8) : p x := h x.toBitVec

theorem isContinuation_rest (x : UInt8) : isContinuation (x &&& 0x3f ||| 0x80) = true :=
  forall_byte (p := fun x => isContinuation (x &&& 0x3f ||| 0x80) = true) (by decide) x

theorem isAscii_of_isContinuation {b : UInt8} (h : isContinuation b = true) : isAscii b = false :=
  forall_byte (p := fun b => isContinuation b = true → isAscii b = false) (by decide) b h

theorem not_isContinuation_of_isAscii {b : UInt8} (h : isAscii b = true) :
    isContinuation b = false := by
  by_contra hc
  rw [isAscii_of_isContinuation (by simpa using hc)] at h
  cases h

/-- A marked byte that is neither a continuation byte nor ASCII begins a character of more bytes. -/
theorem marked_lead {mask mark : UInt8} (h : ∀ b : BitVec 8,
      isContinuation (⟨b⟩ &&& mask ||| mark) = false ∧ isAscii (⟨b⟩ &&& mask ||| mark) = false)
    (x : UInt8) (hrest : ∀ b ∈ rest, isContinuation b = true) :
    ∃ lead rest', (x &&& mask ||| mark) :: rest = lead :: rest' ∧ isContinuation lead = false ∧
      (∀ b ∈ rest', isContinuation b = true) ∧ (isAscii lead = true → rest' = []) := by
  obtain ⟨hlead, hascii⟩ := h x.toBitVec
  exact ⟨_, rest, rfl, hlead, hrest, fun ha => absurd (hascii.symm.trans ha) Bool.false_ne_true⟩

/-- A character is a first byte, which is no continuation byte, and continuation bytes; the first
byte is an ASCII byte only if it is the only one. -/
theorem CharBytes.lead (h : CharBytes bs) : ∃ lead rest, bs = lead :: rest ∧
    isContinuation lead = false ∧ (∀ b ∈ rest, isContinuation b = true) ∧
    (isAscii lead = true → rest = []) := by
  cases h with
  | one x hx => exact ⟨x, [], rfl, not_isContinuation_of_isAscii hx, by simp, fun _ => rfl⟩
  | two x y => exact marked_lead (by decide) x (by simp [isContinuation_rest])
  | three x y z => exact marked_lead (by decide) x (by simp [isContinuation_rest])
  | four x y z t => exact marked_lead (by decide) x (by simp [isContinuation_rest])

theorem encodeChar_lead (c : Char) : ∃ lead rest, String.utf8EncodeChar c = lead :: rest ∧
    isContinuation lead = false ∧ (∀ b ∈ rest, isContinuation b = true) ∧
    (isAscii lead = true → rest = []) := (charBytes_encodeChar c).lead

theorem encodeChar_length_pos (c : Char) : 0 < (String.utf8EncodeChar c).length := by
  obtain ⟨lead, rest, h, _⟩ := encodeChar_lead c
  simp [h]

theorem length_le_encode (cs : List Char) : cs.length ≤ (encode cs).length := by
  induction cs with
  | nil => simp
  | cons c cs ih =>
    have := encodeChar_length_pos c
    rw [encode_cons, List.length_append, List.length_cons]
    omega

theorem length_encodeChar_eq_one_iff {c : Char} :
    (String.utf8EncodeChar c).length = 1 ↔ c.toNat < 128 := by
  rw [String.length_utf8EncodeChar, Char.utf8Size_eq_one_iff]
  exact Nat.lt_succ_iff.symm

/-- A text has as many bytes as characters if it is ASCII only. -/
theorem length_encode_eq_iff {cs : List Char} :
    (encode cs).length = cs.length ↔ ∀ c ∈ cs, c.toNat < 128 := by
  induction cs with
  | nil => simp
  | cons c cs ih =>
    have hpos := encodeChar_length_pos c
    have hle := length_le_encode cs
    rw [List.forall_mem_cons, ← ih, ← length_encodeChar_eq_one_iff, encode_cons, List.length_append,
      List.length_cons]
    omega

theorem encode_ne_nil {cs : List Char} (h : cs ≠ []) : encode cs ≠ [] := by
  have hpos := List.length_pos_iff.mpr h
  exact List.length_pos_iff.mp (Nat.lt_of_lt_of_le hpos (length_le_encode cs))

theorem encodeChar_of_lt {c : Char} (h : c.toNat < 128) :
    String.utf8EncodeChar c = [UInt8.ofNat c.toNat] := by
  have hle : c.val ≤ 127 := Nat.le_of_lt_succ h
  rw [String.utf8EncodeChar_eq_utf8EncodeCharFast, String.utf8EncodeCharFast, if_pos hle]
  rfl

/-- ASCII bytes are the encoding of their characters. -/
theorem encode_map_ofNat {bs : List UInt8} (h : ∀ b ∈ bs, b.toNat < 128) :
    encode (bs.map fun b => Char.ofNat b.toNat) = bs := by
  induction bs with
  | nil => rfl
  | cons b bs ih =>
    have hb : b.toNat < 128 := h b (.head _)
    have hvalid : b.toNat.isValidChar := .inl (by omega)
    have hchar : (Char.ofNat b.toNat).toNat = b.toNat := by
      rw [Char.ofNat, dif_pos hvalid]
      rfl
    rw [List.map_cons, encode_cons, encodeChar_of_lt (hchar.symm ▸ hb), hchar, UInt8.ofNat_toNat,
      ih fun b hb => h b (.tail _ hb)]
    rfl

/-- The bytes of a character beyond ASCII are no ASCII bytes. -/
theorem not_isAscii_of_mem {c : Char} (h : 128 ≤ c.toNat) {b : UInt8}
    (hb : b ∈ String.utf8EncodeChar c) : isAscii b = false := by
  obtain ⟨lead, rest, hbytes, -, hrest, hascii⟩ := encodeChar_lead c
  rw [hbytes] at hb
  obtain rfl | hb := List.mem_cons.mp hb
  · rw [Bool.eq_false_iff]
    intro ha
    have hone := congrArg List.length (hbytes.trans (congrArg _ (hascii ha)))
    exact absurd (length_encodeChar_eq_one_iff.mp hone) (Nat.not_lt.mpr h)
  · exact isAscii_of_isContinuation (hrest b hb)

/-- An ASCII byte in a character is all of it. -/
theorem toNat_of_mem_encodeChar {c : Char} {b : UInt8} (hb : b ∈ String.utf8EncodeChar c)
    (hascii : isAscii b = true) : c.toNat = b.toNat := by
  by_cases h : c.toNat < 128
  · rw [encodeChar_of_lt h] at hb
    rw [List.mem_singleton.mp hb, UInt8.toNat_ofNat']
    omega
  · rw [not_isAscii_of_mem (by omega) hb] at hascii
    cases hascii

/-! ## Offsets -/

/-- The text has `k` characters before the byte offset `i`, at which the next one begins. -/
def Offset (cs : List Char) (i k : Nat) : Prop :=
  ∃ before after, cs = before ++ after ∧ (encode before).length = i ∧ before.length = k

theorem Offset.zero (cs : List Char) : Offset cs 0 0 := ⟨[], cs, rfl, rfl, rfl⟩

theorem Offset.end (cs : List Char) : Offset cs (encode cs).length cs.length :=
  ⟨cs, [], by simp, rfl, rfl⟩

theorem Offset.le (h : Offset cs i k) : i ≤ (encode cs).length := by
  obtain ⟨before, after, rfl, rfl, rfl⟩ := h
  simp

theorem Offset.le_length (h : Offset cs i k) : k ≤ cs.length := by
  obtain ⟨before, after, rfl, rfl, rfl⟩ := h
  simp

theorem Offset.cons (h : Offset cs i k) (c : Char) :
    Offset (c :: cs) ((String.utf8EncodeChar c).length + i) (k + 1) := by
  obtain ⟨before, after, rfl, rfl, rfl⟩ := h
  exact ⟨c :: before, after, rfl, by simp, rfl⟩

/-- At an offset there is no continuation byte. -/
theorem Offset.not_isContinuation (h : Offset cs i k) (hb : (encode cs)[i]? = some b) :
    isContinuation b = false := by
  obtain ⟨before, after, rfl, rfl, rfl⟩ := h
  rw [encode_append, List.getElem?_append_right (Nat.le_refl _), Nat.sub_self] at hb
  cases after with
  | nil => cases hb
  | cons c after =>
    obtain ⟨lead, rest, heq, hlead, _⟩ := encodeChar_lead c
    rw [encode_cons, heq, List.cons_append, List.getElem?_cons_zero, Option.some.injEq] at hb
    exact hb ▸ hlead

/-- Every place without a continuation byte is an offset. -/
theorem exists_offset {cs : List Char} (hi : i ≤ (encode cs).length)
    (hb : ∀ b, (encode cs)[i]? = some b → isContinuation b = false) : ∃ k, Offset cs i k := by
  induction cs generalizing i with
  | nil => exact ⟨0, by rw [Nat.le_zero.mp hi]; exact .zero []⟩
  | cons c cs ih =>
    by_cases h0 : i = 0
    · exact ⟨0, by rw [h0]; exact .zero _⟩
    · obtain ⟨lead, rest, heq, _, hrest, _⟩ := encodeChar_lead c
      by_cases hlt : i < (String.utf8EncodeChar c).length
      · -- inside of the character there are continuation bytes only
        have hmem : (String.utf8EncodeChar c)[i] ∈ rest := by
          have : i - 1 < rest.length := by rw [heq, List.length_cons] at hlt; omega
          have hget : (String.utf8EncodeChar c)[i] = rest[i - 1] := by
            simp only [heq, List.getElem_cons, h0, dite_false]
          rw [hget]
          exact List.getElem_mem this
        have hnot := hb _ (by
          rw [encode_cons, List.getElem?_append_left hlt]
          exact List.getElem?_eq_getElem hlt)
        rw [hrest _ hmem] at hnot
        cases hnot
      · rw [encode_cons, List.length_append] at hi
        obtain ⟨k, hk⟩ := ih (i := i - (String.utf8EncodeChar c).length) (by omega) fun b h =>
          hb b (by rw [encode_cons, List.getElem?_append_right (by omega)]; exact h)
        refine ⟨k + 1, ?_⟩
        have := hk.cons c
        rwa [Nat.add_sub_cancel' (by omega)] at this

/-- After an ASCII byte there is an offset. -/
theorem exists_offset_succ {cs : List Char} (hb : (encode cs)[i]? = some b)
    (hascii : isAscii b = true) : ∃ k, Offset cs (i + 1) k := by
  obtain ⟨k, before, after, rfl, rfl, rfl⟩ := exists_offset (i := i)
    (Nat.le_of_lt (List.getElem?_eq_some_iff.mp hb).1) fun b' hb' => by
      rw [hb, Option.some.injEq] at hb'
      exact hb' ▸ not_isContinuation_of_isAscii hascii
  rw [encode_append, List.getElem?_append_right (Nat.le_refl _), Nat.sub_self] at hb
  cases after with
  | nil => cases hb
  | cons c after =>
    obtain ⟨lead, rest, heq, _, _, hone⟩ := encodeChar_lead c
    rw [encode_cons, heq, List.cons_append, List.getElem?_cons_zero, Option.some.injEq] at hb
    refine ⟨(before ++ [c]).length, before ++ [c], after, by simp, ?_, rfl⟩
    rw [encode_append, encode_cons, heq, hone (hb ▸ hascii)]
    simp

/-- The next offset, with continuation bytes up to it. -/
theorem Offset.next (h : Offset cs i k) (hi : i < (encode cs).length) :
    ∃ j, i < j ∧ Offset cs j (k + 1) ∧
      ∀ n b, i < n → n < j → (encode cs)[n]? = some b → isContinuation b = true := by
  obtain ⟨before, after, rfl, rfl, rfl⟩ := h
  cases after with
  | nil => simp at hi
  | cons c after =>
    obtain ⟨lead, rest, heq, _, hrest, _⟩ := encodeChar_lead c
    refine ⟨(encode (before ++ [c])).length, ?_, ⟨before ++ [c], after, by simp, rfl, by simp⟩,
      fun n b hn hj hb => ?_⟩
    · simp [heq]
    · rw [encode_append, List.getElem?_append_right (Nat.le_of_lt hn), encode_cons, heq,
        show n - (encode before).length = n - (encode before).length - 1 + 1 by omega,
        List.cons_append, List.getElem?_cons_succ, List.getElem?_append_left] at hb
      · exact hrest b (List.mem_of_getElem? hb)
      · simp [heq] at hj
        omega

/-- The offset before, with continuation bytes after it. -/
theorem Offset.prev (h : Offset cs i k) (hi : 0 < i) :
    ∃ j l, j < i ∧ k = l + 1 ∧ Offset cs j l ∧
      ∀ n b, j < n → n < i → (encode cs)[n]? = some b → isContinuation b = true := by
  obtain ⟨before, after, rfl, rfl, rfl⟩ := h
  rcases List.eq_nil_or_concat before with rfl | ⟨before, c, rfl⟩
  · simp at hi
  · rw [List.concat_eq_append] at hi ⊢
    have hprev : Offset (before ++ [c] ++ after) (encode before).length before.length :=
      ⟨before, c :: after, by simp, rfl, rfl⟩
    have hlt : (encode before).length < (encode (before ++ [c])).length := by
      rw [encode_append, List.length_append, encode_cons, List.length_append]
      have := encodeChar_length_pos c
      omega
    obtain ⟨j, hj, ⟨b', a', heq, hlen, hk⟩, hcont⟩ := hprev.next (by simp at hlt ⊢; omega)
    obtain ⟨rfl, -⟩ : before ++ [c] = b' ∧ after = a' :=
      List.append_inj heq (by simp [hk])
    subst hlen
    exact ⟨_, _, hlt, by simp, hprev, hcont⟩

/-- The number of characters before it gives an offset. -/
theorem Offset.unique (h : Offset cs i k) (h' : Offset cs j k) : i = j := by
  obtain ⟨before, after, rfl, rfl, rfl⟩ := h
  obtain ⟨before', after', heq, rfl, hlen⟩ := h'
  rw [(List.append_inj heq hlen.symm).1]

theorem Offset.pos_iff (h : Offset cs i k) : 0 < k ↔ 0 < i := by
  obtain ⟨before, after, rfl, rfl, rfl⟩ := h
  cases before with
  | nil => simp
  | cons c before =>
    have := encodeChar_length_pos c
    rw [encode_cons, List.length_append, List.length_cons]
    omega

/-- Before an offset up to which there are ASCII bytes only, every byte is a character. -/
theorem Offset.eq_of_ascii (h : Offset cs i k)
    (hascii : ∀ n b, n < i → (encode cs)[n]? = some b → isAscii b = true) : k = i := by
  obtain ⟨before, after, rfl, rfl, rfl⟩ := h
  have hall : ∀ b ∈ encode before, isAscii b = true := by
    intro b hb
    obtain ⟨n, hn, rfl⟩ := List.getElem_of_mem hb
    apply hascii n _ hn
    rw [encode_append, List.getElem?_append_left hn]
    exact List.getElem?_eq_getElem hn
  clear hascii
  induction before with
  | nil => rfl
  | cons c before ih =>
    obtain ⟨lead, rest, heq, _, _, hone⟩ := encodeChar_lead c
    have hlead : isAscii lead = true := hall lead (by simp [heq])
    have := ih fun b hb => hall b (by simp [hb])
    simp [heq, hone hlead, this, Nat.add_comm]

/-! ## Edits at offsets -/

theorem Offset.insert (h : Offset cs i k) (new : List Char) :
    ∃ cs', encode cs' = (encode cs).take i ++ encode new ++ (encode cs).drop i ∧
      Offset cs' (i + (encode new).length) (k + new.length) := by
  obtain ⟨before, after, rfl, rfl, rfl⟩ := h
  exact ⟨before ++ new ++ after, by simp, before ++ new, after, rfl, by simp, by simp⟩

theorem Offset.erase (h : Offset cs i k) (h' : Offset cs j l) (hij : i ≤ j) :
    ∃ cs', encode cs' = (encode cs).take i ++ (encode cs).drop j ∧ Offset cs' i k := by
  obtain ⟨before, after, rfl, rfl, rfl⟩ := h
  obtain ⟨before', after', heq, rfl, rfl⟩ := h'
  refine ⟨before ++ after', ?_, before, after', rfl, rfl, rfl⟩
  have hdrop : (encode (before ++ after)).drop (encode before').length = encode after' := by
    rw [heq, encode_append, List.drop_left]
  rw [hdrop, encode_append, encode_append, List.take_left]

end Utf8
