import McpeLauncher.Client.Base64

/-!
# Base64 with line breaks

`encode` writes into a string whose size it computes before. What is encoded is decoded again, also
with line breaks in the text.
-/

namespace McpeLauncher.Base64

/-! ## The output -/

/-- `outp[k] = c`, none if that is outside. -/
def write (outp : List UInt8) (k : Nat) (c : UInt8) : Option (List UInt8) :=
  if k < outp.length then some (outp.set k c) else none

def outputLength (padded : Bool) (n : Nat) : Nat :=
  if padded then (n + 2) / 3 * 4 else n / 3 * 4 + if n % 3 = 0 then 0 else 1 + n % 3

/-- The body of the loop of `encode`. -/
def encodeBlock (padded : Bool) (input outp : List UInt8) (i : Nat) : Option (List UInt8) := do
  let n := input.length
  let i0 ← input[i * 3]?
  let i1 ← if n > i * 3 + 1 then input[i * 3 + 1]? else some 0
  let i2 ← if n > i * 3 + 2 then input[i * 3 + 2]? else some 0
  if i ≠ (n + 2) / 3 - 1 then
    let outp ← write outp (i * 4) (letter (n0 i0))
    let outp ← write outp (i * 4 + 1) (letter (n1 i0 i1))
    let outp ← write outp (i * 4 + 2) (letter (n2 i1 i2))
    write outp (i * 4 + 3) (letter (n3 i2))
  else
    let outp ← write outp (i * 4) (letter (n0 i0))
    let outp ← write outp (i * 4 + 1) (letter (n1 i0 i1))
    let outp ← if n > i * 3 + 1 then write outp (i * 4 + 2) (letter (n2 i1 i2))
      else if padded then write outp (i * 4 + 2) 61 else some outp
    if n > i * 3 + 2 then write outp (i * 4 + 3) (letter (n3 i2))
    else if padded then write outp (i * 4 + 3) 61 else some outp

/-- `encode` with its output: none if something is read or written that is not there. -/
def encodeString (padded : Bool) (input : List UInt8) : Option (List UInt8) :=
  (List.range ((input.length + 2) / 3)).foldlM (encodeBlock padded input)
    (List.replicate (outputLength padded input.length) 0)

/-! ## Every write is in the output -/

section Output
variable {before done : List UInt8} {i k : Nat}

theorem write_eq (done outp : List UInt8) (z c : UInt8) (hk : k = done.length) :
    write (done ++ z :: outp) k c = some (done ++ c :: outp) := by
  have hlt : k < (done ++ z :: outp).length := by
    rw [List.length_append, List.length_cons]
    omega
  rw [write, if_pos hlt, hk, List.set_append_right _ _ (Nat.le_refl _), Nat.sub_self]
  rfl

theorem getElem?_behind (input : List UInt8) (j : Nat) (hk : k = before.length + j) :
    (before ++ input)[k]? = input[j]? := by
  rw [List.getElem?_append_right (by omega), hk, Nat.add_sub_cancel_left]

theorem encodeBlock_full (padded : Bool) (i0 i1 i2 z0 z1 z2 z3 : UInt8) (input outp : List UInt8)
    (hbefore : before.length = i * 3) (hdone : done.length = i * 4) :
    encodeBlock padded (before ++ i0 :: i1 :: i2 :: input)
      (done ++ z0 :: z1 :: z2 :: z3 :: outp) i =
    some (done ++ letter (n0 i0) :: letter (n1 i0 i1) :: letter (n2 i1 i2) :: letter (n3 i2) ::
      outp) := by
  have hn : (before ++ i0 :: i1 :: i2 :: input).length = i * 3 + (input.length + 3) := by
    rw [List.length_append, hbefore]
    rfl
  have h0 := write_eq done (z1 :: z2 :: z3 :: outp) z0 (letter (n0 i0)) hdone.symm
  have h1 := write_eq (done ++ [letter (n0 i0)]) (z2 :: z3 :: outp) z1 (letter (n1 i0 i1))
    (show i * 4 + 1 = _ by rw [List.length_append, hdone]; rfl)
  have h2 := write_eq (done ++ [letter (n0 i0), letter (n1 i0 i1)]) (z3 :: outp) z2
    (letter (n2 i1 i2)) (show i * 4 + 2 = _ by rw [List.length_append, hdone]; rfl)
  have h3 := write_eq (done ++ [letter (n0 i0), letter (n1 i0 i1), letter (n2 i1 i2)]) outp z3
    (letter (n3 i2)) (show i * 4 + 3 = _ by rw [List.length_append, hdone]; rfl)
  simp only [List.append_assoc, List.cons_append, List.nil_append] at h1 h2 h3
  simp only [encodeBlock, hn, getElem?_behind _ 0 (show i * 3 = before.length + 0 by omega),
    getElem?_behind _ 1 (show i * 3 + 1 = before.length + 1 by omega),
    getElem?_behind _ 2 (show i * 3 + 2 = before.length + 2 by omega),
    if_pos (show i * 3 + (input.length + 3) > i * 3 + 1 by omega),
    if_pos (show i * 3 + (input.length + 3) > i * 3 + 2 by omega), Option.bind_eq_bind,
    List.getElem?_cons_zero, List.getElem?_cons_succ, Option.bind_some, h0, h1, h2, h3, ite_self]

/-- The last block, if a byte is missing. -/
theorem encodeBlock_two (padded : Bool) (i0 i1 z0 z1 z2 : UInt8) (outp : List UInt8)
    (houtp : outp.length = (pad padded 1).length)
    (hbefore : before.length = i * 3) (hdone : done.length = i * 4) :
    encodeBlock padded (before ++ [i0, i1]) (done ++ z0 :: z1 :: z2 :: outp) i =
    some (done ++ letter (n0 i0) :: letter (n1 i0 i1) :: letter (n2 i1 0) :: pad padded 1) := by
  have hn : (before ++ [i0, i1]).length = i * 3 + 2 := by
    rw [List.length_append, hbefore]
    rfl
  have h0 := write_eq done (z1 :: z2 :: outp) z0 (letter (n0 i0)) hdone.symm
  have h1 := write_eq (done ++ [letter (n0 i0)]) (z2 :: outp) z1 (letter (n1 i0 i1))
    (show i * 4 + 1 = _ by rw [List.length_append, hdone]; rfl)
  have h2 := write_eq (done ++ [letter (n0 i0), letter (n1 i0 i1)]) outp z2
    (letter (n2 i1 0)) (show i * 4 + 2 = _ by rw [List.length_append, hdone]; rfl)
  simp only [List.append_assoc, List.cons_append, List.nil_append] at h1 h2
  simp only [encodeBlock, hn, getElem?_behind _ 0 (show i * 3 = before.length + 0 by omega),
    getElem?_behind _ 1 (show i * 3 + 1 = before.length + 1 by omega),
    if_pos (show i * 3 + 2 > i * 3 + 1 by omega), if_neg (show ¬ i * 3 + 2 > i * 3 + 2 by omega),
    if_neg (show ¬ i ≠ (i * 3 + 2 + 2) / 3 - 1 by omega), Option.bind_eq_bind,
    List.getElem?_cons_zero, List.getElem?_cons_succ, Option.bind_some, h0, h1, h2]
  cases padded with
  | false => rw [List.eq_nil_of_length_eq_zero houtp]; rfl
  | true =>
    obtain ⟨z3, rfl⟩ := List.length_eq_one_iff.mp houtp
    have h3 := write_eq (done ++ [letter (n0 i0), letter (n1 i0 i1), letter (n2 i1 0)]) [] z3 61
      (show i * 4 + 3 = _ by rw [List.length_append, hdone]; rfl)
    simp only [List.append_assoc, List.cons_append, List.nil_append] at h3
    exact h3

/-- The last block, if two bytes are missing. -/
theorem encodeBlock_one (padded : Bool) (i0 z0 z1 : UInt8) (outp : List UInt8)
    (houtp : outp.length = (pad padded 2).length)
    (hbefore : before.length = i * 3) (hdone : done.length = i * 4) :
    encodeBlock padded (before ++ [i0]) (done ++ z0 :: z1 :: outp) i =
    some (done ++ letter (n0 i0) :: letter (n1 i0 0) :: pad padded 2) := by
  have hn : (before ++ [i0]).length = i * 3 + 1 := by
    rw [List.length_append, hbefore]
    rfl
  have h0 := write_eq done (z1 :: outp) z0 (letter (n0 i0)) hdone.symm
  have h1 := write_eq (done ++ [letter (n0 i0)]) outp z1 (letter (n1 i0 0))
    (show i * 4 + 1 = _ by rw [List.length_append, hdone]; rfl)
  simp only [List.append_assoc, List.cons_append, List.nil_append] at h1
  simp only [encodeBlock, hn, getElem?_behind _ 0 (show i * 3 = before.length + 0 by omega),
    if_neg (show ¬ i * 3 + 1 > i * 3 + 1 by omega), if_neg (show ¬ i * 3 + 1 > i * 3 + 2 by omega),
    if_neg (show ¬ i ≠ (i * 3 + 1 + 2) / 3 - 1 by omega), Option.bind_eq_bind,
    List.getElem?_cons_zero, Option.bind_some, h0, h1]
  cases padded with
  | false => rw [List.eq_nil_of_length_eq_zero houtp]; rfl
  | true =>
    obtain ⟨z2, z3, rfl⟩ := List.length_eq_two.mp houtp
    have h2 := write_eq (done ++ [letter (n0 i0), letter (n1 i0 0)]) [z3] z2 61
      (show i * 4 + 2 = _ by rw [List.length_append, hdone]; rfl)
    have h3 := write_eq (done ++ [letter (n0 i0), letter (n1 i0 0), 61]) [] z3 61
      (show i * 4 + 3 = _ by rw [List.length_append, hdone]; rfl)
    simp only [List.append_assoc, List.cons_append, List.nil_append] at h2 h3
    simp only [if_true, h2, Option.bind_some, h3]
    rfl

theorem outputLength_add_three (padded : Bool) (n : Nat) :
    outputLength padded (n + 3) = outputLength padded n + 4 := by
  unfold outputLength
  rw [Nat.add_mod_right]
  split <;> omega

/-- The blocks from a byte on. -/
theorem foldlM_encodeBlock (padded : Bool) (input before done : List UInt8)
    (hbefore : before.length = i * 3) (hdone : done.length = i * 4) :
    (List.range' i ((input.length + 2) / 3)).foldlM (encodeBlock padded (before ++ input))
      (done ++ List.replicate (outputLength padded input.length) 0) =
    some (done ++ encode padded input) := by
  induction input using encode.induct generalizing before done i with
  | case1 =>
    have hlength : outputLength padded 0 = 0 := by cases padded <;> rfl
    rw [List.length_nil, hlength, encode]
    rfl
  | case2 i0 =>
    have hlength : outputLength padded 1 = (pad padded 2).length + 2 := by cases padded <;> rfl
    have hblock := encodeBlock_one padded i0 0 0 (List.replicate (pad padded 2).length 0)
      List.length_replicate hbefore hdone
    rw [List.length_singleton, hlength, List.replicate_succ, List.replicate_succ, encode]
    exact (bind_pure _).trans hblock
  | case3 i0 i1 =>
    have hlength : outputLength padded 2 = (pad padded 1).length + 3 := by cases padded <;> rfl
    have hblock := encodeBlock_two padded i0 i1 0 0 0 (List.replicate (pad padded 1).length 0)
      List.length_replicate hbefore hdone
    rw [List.length_cons, List.length_singleton, hlength, List.replicate_succ, List.replicate_succ,
      List.replicate_succ, encode]
    exact (bind_pure _).trans hblock
  | case4 i0 i1 i2 input ih =>
    have hlength := outputLength_add_three padded input.length
    have hcount : (input.length + 3 + 2) / 3 = (input.length + 2) / 3 + 1 := by omega
    have hblock := encodeBlock_full padded i0 i1 i2 0 0 0 0 input
      (List.replicate (outputLength padded input.length) 0) hbefore hdone
    have hrest := ih (i := i + 1) (before ++ [i0, i1, i2])
      (done ++ [letter (n0 i0), letter (n1 i0 i1), letter (n2 i1 i2), letter (n3 i2)])
      (by rw [List.length_append, hbefore, Nat.succ_mul]; rfl)
      (by rw [List.length_append, hdone, Nat.succ_mul]; rfl)
    simp only [List.append_assoc, List.cons_append, List.nil_append] at hrest
    rw [List.length_cons, List.length_cons, List.length_cons, hlength, hcount, List.range'_succ,
      List.foldlM_cons, List.replicate_succ, List.replicate_succ, List.replicate_succ,
      List.replicate_succ, hblock, encode]
    exact hrest

/-- No place outside of the output is written, and every place of it is. -/
theorem encodeString_eq (padded : Bool) (input : List UInt8) :
    encodeString padded input = some (encode padded input) := by
  rw [encodeString, List.range_eq_range']
  exact foldlM_encodeBlock padded input [] [] rfl rfl

end Output

/-! ## The padding -/

theorem length_encode (padded : Bool) (input : List UInt8) :
    (encode padded input).length = outputLength padded input.length := by
  induction input using encode.induct with
  | case1 =>
    rw [encode]
    cases padded <;> rfl
  | case2 i0 =>
    rw [encode]
    change _ = outputLength padded 1
    cases padded <;> rfl
  | case3 i0 i1 =>
    rw [encode]
    change _ = outputLength padded 2
    cases padded <;> rfl
  | case4 i0 i1 i2 input ih =>
    simp only [encode, List.length_cons, ih]
    exact (outputLength_add_three padded input.length).symm

theorem letter_ne_pad {n : UInt8} (h : IsSextet n) : letter n ≠ 61 := by
  intro heq
  have hreverse : reverseTable id (letter n) = n := reverseTable_letter h
  rw [heq] at hreverse
  exact h.ne.1 hreverse.symm

/-- Without padding it is the text without `=`. -/
theorem encode_padding (input : List UInt8) : 61 ∉ encode false input ∧
    ∃ k, encode true input = encode false input ++ List.replicate k 61 := by
  induction input using encode.induct with
  | case1 => exact ⟨List.not_mem_nil, 0, rfl⟩
  | case2 i0 =>
    obtain ⟨h0, h1, -⟩ := isSextet i0 0 0
    refine ⟨?_, 2, rfl⟩
    simp [encode, pad, (letter_ne_pad h0).symm, (letter_ne_pad h1).symm]
  | case3 i0 i1 =>
    obtain ⟨h0, h1, h2, -⟩ := isSextet i0 i1 0
    refine ⟨?_, 1, rfl⟩
    simp [encode, pad, (letter_ne_pad h0).symm, (letter_ne_pad h1).symm, (letter_ne_pad h2).symm]
  | case4 i0 i1 i2 input ih =>
    obtain ⟨h0, h1, h2, h3⟩ := isSextet i0 i1 i2
    obtain ⟨hnot, k, hk⟩ := ih
    refine ⟨?_, k, by simp only [encode, hk, List.cons_append]⟩
    simp [encode, (letter_ne_pad h0).symm, (letter_ne_pad h1).symm, (letter_ne_pad h2).symm,
      (letter_ne_pad h3).symm, hnot]

/-! ## Line breaks -/

/-- The default of `skipChars` -/
def lineBreaks : List UInt8 := [13, 10]

/-- A text with line breaks before some of its characters. -/
inductive Spaced : List UInt8 → List UInt8 → Prop
  | nil : Spaced [] []
  | cons {cs text : List UInt8} (breaks : List UInt8) (c : UInt8)
    (hbreaks : ∀ b ∈ breaks, b ∈ lineBreaks) (h : Spaced cs text) :
    Spaced (c :: cs) (breaks ++ c :: text)

theorem Spaced.ne_nil {c : UInt8} {cs text : List UInt8} (h : Spaced (c :: cs) text) :
    text ≠ [] := by
  cases h
  exact List.append_ne_nil_of_right_ne_nil _ (List.cons_ne_nil _ _)

section Breaks
variable {outside : UInt8 → UInt8} {cs text breaks rest input out : List UInt8}

theorem readDigit_breaks (h : ∀ b ∈ breaks, b ∈ lineBreaks) (n : Nat) (previous : UInt8) (p : Nat)
    (text : List UInt8) : readDigit outside lineBreaks n previous p (breaks ++ text) =
      readDigit outside lineBreaks n previous (p + breaks.length) text := by
  induction breaks generalizing p with
  | nil => rfl
  | cons b breaks ih =>
    obtain ⟨hb, hbreaks⟩ := List.forall_mem_cons.mp h
    have hreverse : reverseTable outside b = 255 := by
      obtain rfl | rfl : b = 13 ∨ b = 10 := by simpa [lineBreaks] using hb
      · rfl
      · rfl
    have hskipped : isSkipped lineBreaks b = true := by
      rw [isSkipped, Bool.or_eq_true, decide_eq_true_eq, decide_eq_true_eq]
      exact .inr hb
    rw [List.cons_append, readDigit, hreverse, if_neg (by decide), if_pos hskipped,
      ih hbreaks, List.length_cons, Nat.add_assoc, Nat.add_comm 1]

/-- A digit is read with line breaks before it. -/
theorem readDigit_spaced {n p p' : Nat} {previous i : UInt8} (hspaced : Spaced cs text)
    (h : readDigit outside lineBreaks n previous p cs = .ok (i, p', rest)) (q : Nat) :
    ∃ q' rest', readDigit outside lineBreaks n previous q text = .ok (i, q', rest') ∧
      Spaced rest rest' := by
  induction hspaced generalizing p q with
  | nil =>
    rw [readDigit] at h ⊢
    split at h
    · cases h
    · next hn =>
      cases h
      exact ⟨q, [], by rw [if_neg hn], .nil⟩
  | cons breaks c hbreaks hspaced ih =>
    rw [readDigit_breaks hbreaks]
    rw [readDigit] at h ⊢
    split at h
    · next hvalue =>
      split at h
      · cases h
      · next hvalid =>
        cases h
        exact ⟨_, _, by rw [if_pos hvalue, if_neg hvalid], hspaced⟩
    · next hvalue =>
      split at h
      · next hskipped =>
        obtain ⟨q', rest', hread, hrest⟩ := ih h (q + breaks.length + 1)
        exact ⟨q', rest', by rw [if_neg hvalue, if_pos hskipped, hread], hrest⟩
      · cases h

theorem readBlock_eq_ok {p p' : Nat} (h : readBlock outside lineBreaks p cs = .ok (out, p', rest)) :
    ∃ i0 i1 i2 i3 p0 p1 p2 rest0 rest1 rest2,
      readDigit outside lineBreaks 0 64 p cs = .ok (i0, p0, rest0) ∧
      readDigit outside lineBreaks 1 i0 p0 rest0 = .ok (i1, p1, rest1) ∧
      readDigit outside lineBreaks 2 i1 p1 rest1 = .ok (i2, p2, rest2) ∧
      readDigit outside lineBreaks 3 i2 p2 rest2 = .ok (i3, p', rest) ∧
      out = octets i0 i1 i2 i3 := by
  simp only [readBlock, bind, Except.bind] at h
  split at h
  · cases h
  · next h0 =>
    split at h
    · cases h
    · next h1 =>
      split at h
      · cases h
      · next h2 =>
        split at h
        · cases h
        · next h3 =>
          cases h
          exact ⟨_, _, _, _, _, _, _, _, _, _, h0, h1, h2, h3, rfl⟩

theorem readBlock_spaced {p p' : Nat} (hspaced : Spaced cs text)
    (h : readBlock outside lineBreaks p cs = .ok (out, p', rest)) (q : Nat) :
    ∃ q' rest', readBlock outside lineBreaks q text = .ok (out, q', rest') ∧
      Spaced rest rest' := by
  obtain ⟨i0, i1, i2, i3, p0, p1, p2, rest0, rest1, rest2, h0, h1, h2, h3, rfl⟩ := readBlock_eq_ok h
  obtain ⟨q0, text0, hread0, hspaced0⟩ := readDigit_spaced hspaced h0 q
  obtain ⟨q1, text1, hread1, hspaced1⟩ := readDigit_spaced hspaced0 h1 q0
  obtain ⟨q2, text2, hread2, hspaced2⟩ := readDigit_spaced hspaced1 h2 q1
  obtain ⟨q3, text3, hread3, hspaced3⟩ := readDigit_spaced hspaced2 h3 q2
  exact ⟨q3, text3, readBlock_of_digits hread0 hread1 hread2 hread3, hspaced3⟩

theorem decodeLoop_spaced {p : Nat} {output s : List UInt8} (hspaced : Spaced cs text)
    (h : decodeLoop outside lineBreaks p cs output = .ok s) (q : Nat) :
    decodeLoop outside lineBreaks q text output = .ok s := by
  induction p, cs, output using decodeLoop.induct outside lineBreaks generalizing text q with
  | case1 p output =>
    cases hspaced
    rw [decodeLoop] at h ⊢
    exact h
  | case2 p output c cs what hblock =>
    rw [decodeLoop] at h
    split at h
    · cases h
    · next hok =>
      rw [hblock] at hok
      cases hok
  | case3 p output c cs out p' rest hblock ih =>
    rw [decodeLoop_cons hblock] at h
    obtain ⟨q', rest', hread, hrest⟩ := readBlock_spaced hspaced hblock q
    obtain ⟨d, text', rfl⟩ := List.exists_cons_of_ne_nil hspaced.ne_nil
    rw [decodeLoop_cons hread]
    exact ih hrest h q'

/-- Line breaks in a text do not change what is decoded. -/
theorem decode_spaced {s : List UInt8} (hspaced : Spaced cs text)
    (h : decode outside lineBreaks cs = .ok s) : decode outside lineBreaks text = .ok s :=
  decodeLoop_spaced hspaced h 0

end Breaks

/-- A string is encoded within its output, in four characters for three bytes, and is decoded
again, also with line breaks between the characters. -/
theorem encodeString_decode (outside : UInt8 → UInt8) (padded : Bool) (s : List UInt8) :
    ∃ outp, encodeString padded s = some outp ∧
      (padded = true → outp.length = (s.length + 2) / 3 * 4) ∧
      (padded = false → 61 ∉ outp ∧
        ∃ k, encodeString true s = some (outp ++ List.replicate k 61)) ∧
      ∀ text, Spaced outp text → decode outside lineBreaks text = .ok s := by
  refine ⟨encode padded s, encodeString_eq padded s, ?_, ?_, ?_⟩
  · rintro rfl
    exact length_encode true s
  · rintro rfl
    obtain ⟨hnot, k, hk⟩ := encode_padding s
    exact ⟨hnot, k, by rw [encodeString_eq, hk]⟩
  · intro text hspaced
    exact decode_spaced hspaced (decode_encode padded s)

end McpeLauncher.Base64
