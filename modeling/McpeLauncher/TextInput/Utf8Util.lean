import McpeLauncher.Lib.Utf8

/-!
# UTF-8 utilities

`UTF8Util`: the size of a character by its first byte, the number of characters in a piece of text
and the byte position of a character. A result `none` stands for a read outside of the text.
-/

namespace McpeLauncher.TextInput
open Utf8

abbrev Bytes := List UInt8

/-- `str[i]`, with the terminating zero after the text. -/
def charAt (str : Bytes) (i : Nat) : Option UInt8 :=
  if i = str.length then some 0 else str[i]?

namespace UTF8Util

def getCharByteSize (c : UInt8) : Nat :=
  if c &&& 0b11111000 = 0b11110000 then 4
  else if c &&& 0b11110000 = 0b11100000 then 3
  else if c &&& 0b11100000 = 0b11000000 then 2
  else 1

/-- The loop of `getLength`, for at most so many characters. -/
def getLengthLoop (str : Bytes) (len : Nat) : (fuel i ret : Nat) → Option Nat
  | 0, i, ret => if i < len then none else some ret
  | fuel + 1, i, ret =>
    if i < len then do
      let c ← charAt str i
      getLengthLoop str len fuel (i + getCharByteSize c) (ret + 1)
    else some ret

def getLength (str : Bytes) (len : Nat) : Option Nat := getLengthLoop str len len 0 0

/-- The loop of `getBytePosFromUTF`, for at most so many characters. -/
def getBytePosLoop (str : Bytes) (len utflen : Nat) : (fuel i ret : Nat) → Option Nat
  | 0, i, ret => if i < len then none else some ret
  | fuel + 1, i, ret =>
    if i < len then do
      let c ← charAt str i
      let i := i + getCharByteSize c
      let ret := ret + 1
      if utflen = ret then some i else getBytePosLoop str len utflen fuel i ret
    else some ret

def getBytePosFromUTF (str : Bytes) (len utflen : Nat) : Option Nat :=
  if utflen = 0 then some 0 else getBytePosLoop str len utflen len 0 0

/-! ## On valid text -/

theorem getCharByteSize_of_charBytes (h : CharBytes bs) :
    ∃ lead, bs[0]? = some lead ∧ getCharByteSize lead = bs.length := by
  cases h with
  | one x hx =>
    refine ⟨x, rfl, ?_⟩
    exact forall_byte (p := fun x => isAscii x = true → getCharByteSize x = 1) (by decide) x hx
  | two x y =>
    exact ⟨_, rfl, forall_byte (p := fun x => getCharByteSize (x &&& 0x1f ||| 0xc0) = 2) (by decide) x⟩
  | three x y z =>
    exact ⟨_, rfl, forall_byte (p := fun x => getCharByteSize (x &&& 0x0f ||| 0xe0) = 3) (by decide) x⟩
  | four x y z t =>
    exact ⟨_, rfl, forall_byte (p := fun x => getCharByteSize (x &&& 0x07 ||| 0xf0) = 4) (by decide) x⟩

theorem length_encode_lt (before : List Char) (c : Char) (after : List Char) :
    (encode before).length < (encode (before ++ c :: after)).length := by
  have hpos := encodeChar_length_pos c
  rw [encode_append, encode_cons, List.length_append, List.length_append]
  omega

/-- The first byte of a character in a text gives the size of the character. -/
theorem charAt_lead (before : List Char) (c : Char) (after : List Char) :
    ∃ lead, charAt (encode (before ++ c :: after)) (encode before).length = some lead ∧
      (encode before).length + getCharByteSize lead = (encode (before ++ [c])).length := by
  obtain ⟨lead, hlead, hsize⟩ := getCharByteSize_of_charBytes (charBytes_encodeChar c)
  have hpos := encodeChar_length_pos c
  refine ⟨lead, ?_, ?_⟩
  · rw [charAt, if_neg (Nat.ne_of_lt (length_encode_lt before c after)), encode_append,
      List.getElem?_append_right (Nat.le_refl _), Nat.sub_self, encode_cons,
      List.getElem?_append_left hpos, hlead]
  · rw [hsize, encode_append, encode_cons, encode_nil, List.append_nil, List.length_append]

theorem getLengthLoop_spec (before mid after : List Char) (fuel ret : Nat)
    (hfuel : mid.length ≤ fuel) :
    getLengthLoop (encode (before ++ mid ++ after)) (encode (before ++ mid)).length fuel
      (encode before).length ret = some (ret + mid.length) := by
  induction mid generalizing before fuel ret with
  | nil => cases fuel <;> simp [getLengthLoop]
  | cons c mid ih =>
    cases fuel with
    | zero => simp at hfuel
    | succ fuel =>
      obtain ⟨lead, hlead, hnext⟩ := charAt_lead before c (mid ++ after)
      have hsplit : before ++ c :: mid = before ++ [c] ++ mid := by simp
      have hih := ih (before ++ [c]) fuel (ret + 1) (Nat.le_of_succ_le_succ hfuel)
      rw [getLengthLoop, if_pos (length_encode_lt before c mid),
        show before ++ c :: mid ++ after = before ++ c :: (mid ++ after) by simp, hlead,
        Option.bind_eq_bind, Option.bind_some, hnext, hsplit,
        show before ++ c :: (mid ++ after) = before ++ [c] ++ mid ++ after by simp, hih]
      simp only [List.length_cons, Option.some.injEq]
      omega

/-- Up to an offset `getLength` counts the characters. -/
theorem getLength_offset (h : Offset cs i k) : getLength (encode cs) i = some k := by
  obtain ⟨before, after, rfl, rfl, rfl⟩ := h
  have := getLengthLoop_spec [] before after (encode before).length 0 (length_le_encode before)
  simpa [getLength] using this

theorem getBytePosLoop_spec (before mid : List Char) (c : Char) (after : List Char) (fuel : Nat)
    (hfuel : mid.length < fuel) :
    getBytePosLoop (encode (before ++ mid ++ c :: after))
      (encode (before ++ mid ++ c :: after)).length (before.length + mid.length + 1) fuel
      (encode before).length before.length = some (encode (before ++ mid ++ [c])).length := by
  induction mid generalizing before fuel with
  | nil =>
    cases fuel with
    | zero => simp at hfuel
    | succ fuel =>
      obtain ⟨lead, hlead, hnext⟩ := charAt_lead before c after
      rw [List.append_nil, getBytePosLoop, if_pos (length_encode_lt before c after), hlead,
        Option.bind_eq_bind, Option.bind_some, if_pos (by simp), hnext]
  | cons d mid ih =>
    cases fuel with
    | zero => simp at hfuel
    | succ fuel =>
      obtain ⟨lead, hlead, hnext⟩ := charAt_lead before d (mid ++ c :: after)
      have hih := ih (before ++ [d]) fuel (Nat.lt_of_succ_lt_succ hfuel)
      have hsplit : before ++ d :: mid = before ++ [d] ++ mid := by simp
      rw [show before ++ d :: mid ++ c :: after = before ++ d :: (mid ++ c :: after) by simp,
        getBytePosLoop, if_pos (length_encode_lt before d _), hlead, Option.bind_eq_bind,
        Option.bind_some, if_neg (by simp), hnext,
        show before ++ d :: (mid ++ c :: after) = before ++ [d] ++ mid ++ c :: after by simp, hsplit,
        ← hih]
      simp [Nat.add_comm, Nat.add_left_comm, Nat.add_assoc]

/-- The byte position of a character that the text has, or of its end. -/
theorem getBytePosFromUTF_offset (cs : List Char) (k : Nat) (hk : k ≤ cs.length) :
    ∃ i, getBytePosFromUTF (encode cs) (encode cs).length k = some i ∧ Offset cs i k := by
  cases k with
  | zero => exact ⟨0, by simp [getBytePosFromUTF], .zero cs⟩
  | succ k =>
    obtain ⟨before, c, after, rfl, rfl⟩ : ∃ before c after, cs = before ++ c :: after ∧
        before.length = k :=
      ⟨cs.take k, cs[k], cs.drop (k + 1), by simp, by simp; omega⟩
    refine ⟨(encode (before ++ [c])).length, ?_, before ++ [c], after, by simp, rfl, by simp⟩
    have hlen : before.length < (encode (before ++ c :: after)).length :=
      Nat.lt_of_lt_of_le (by simp) (length_le_encode _)
    have := getBytePosLoop_spec [] before c after _ hlen
    simpa [getBytePosFromUTF] using this

/-- For a character behind the end of the text there is no position: what comes back is the number
of characters. -/
theorem getBytePosLoop_beyond (before mid : List Char) (utflen fuel : Nat)
    (hfuel : mid.length ≤ fuel) (hutflen : before.length + mid.length < utflen) :
    getBytePosLoop (encode (before ++ mid)) (encode (before ++ mid)).length utflen fuel
      (encode before).length before.length = some (before.length + mid.length) := by
  induction mid generalizing before fuel with
  | nil => cases fuel <;> simp [getBytePosLoop]
  | cons c mid ih =>
    cases fuel with
    | zero => simp at hfuel
    | succ fuel =>
      obtain ⟨lead, hlead, hnext⟩ := charAt_lead before c mid
      have hih := ih (before ++ [c]) fuel (Nat.le_of_succ_le_succ hfuel)
        (by simp at hutflen ⊢; omega)
      have hutflen' : utflen ≠ before.length + 1 := by
        rw [List.length_cons] at hutflen
        omega
      rw [getBytePosLoop, if_pos (length_encode_lt before c mid), hlead, Option.bind_eq_bind,
        Option.bind_some, if_neg hutflen', hnext, List.append_cons before c mid,
        ← List.length_concat, List.concat_eq_append, hih, List.length_append]
      simp only [List.length_cons, List.length_nil, Option.some.injEq]
      omega

theorem getBytePosFromUTF_beyond {cs : List Char} {n : Nat} (h : cs.length < n) :
    getBytePosFromUTF (encode cs) (encode cs).length n = some cs.length := by
  have hloop := getBytePosLoop_beyond [] cs n _ (length_le_encode cs) (by simpa using h)
  rw [getBytePosFromUTF, if_neg (by omega)]
  simpa using hloop

/-! ## The law of positions -/

theorem getCharByteSize_pos (c : UInt8) : 1 ≤ getCharByteSize c := by
  unfold getCharByteSize
  split_ifs <;> omega

theorem charAt_of_lt {str : Bytes} {i : Nat} (h : i < str.length) : ∃ c, charAt str i = some c :=
  ⟨str[i], by rw [charAt, if_neg (Nat.ne_of_lt h), List.getElem?_eq_getElem h]⟩

/-- Inside of any bytes the loop ends, and it only counts up. -/
theorem getLengthLoop_total {str : Bytes} {len : Nat} (hlen : len ≤ str.length) (fuel i ret : Nat)
    (hfuel : len ≤ i + fuel) : ∃ k, getLengthLoop str len fuel i ret = some k ∧ ret ≤ k := by
  induction fuel generalizing i ret with
  | zero => exact ⟨ret, by rw [getLengthLoop, if_neg (by omega)], Nat.le_refl _⟩
  | succ fuel ih =>
    by_cases hi : i < len
    · obtain ⟨c, hc⟩ := charAt_of_lt (Nat.lt_of_lt_of_le hi hlen)
      have hpos := getCharByteSize_pos c
      obtain ⟨k, hk, hret⟩ := ih (i + getCharByteSize c) (ret + 1) (by omega)
      exact ⟨k, by rw [getLengthLoop, if_pos hi, hc]; exact hk, by omega⟩
    · exact ⟨ret, by rw [getLengthLoop, if_neg hi], Nat.le_refl _⟩

/-- Up to a position the loop counts no more than up to a later one. -/
theorem getLengthLoop_mono {str : Bytes} {len len' : Nat} (hle : len ≤ len')
    (hlen' : len' ≤ str.length) (fuel fuel' i ret : Nat) (hfuel : len ≤ i + fuel)
    (hfuel' : len' ≤ i + fuel') :
    ∃ k l, getLengthLoop str len fuel i ret = some k ∧
      getLengthLoop str len' fuel' i ret = some l ∧ k ≤ l := by
  have hstop (fuel' i ret : Nat) (hfuel' : len' ≤ i + fuel') : ∃ k l, some ret = some k ∧
      getLengthLoop str len' fuel' i ret = some l ∧ k ≤ l := by
    obtain ⟨l, hl, hret⟩ := getLengthLoop_total hlen' fuel' i ret hfuel'
    exact ⟨ret, l, rfl, hl, hret⟩
  induction fuel generalizing fuel' i ret with
  | zero =>
    rw [getLengthLoop, if_neg (by omega)]
    exact hstop fuel' i ret hfuel'
  | succ fuel ih =>
    rw [getLengthLoop]
    by_cases hi : i < len
    · cases fuel' with
      | zero => omega
      | succ fuel' =>
        obtain ⟨c, hc⟩ := charAt_of_lt (show i < str.length by omega)
        have hpos := getCharByteSize_pos c
        rw [if_pos hi, getLengthLoop, if_pos (Nat.lt_of_lt_of_le hi hle), hc]
        exact ih fuel' (i + getCharByteSize c) (ret + 1) (by omega) (by omega)
    · rw [if_neg hi]
      exact hstop fuel' i ret hfuel'

theorem getLength_mono {str : Bytes} {i j : Nat} (hij : i ≤ j) (hj : j ≤ str.length) :
    ∃ k l, getLength str i = some k ∧ getLength str j = some l ∧ k ≤ l :=
  getLengthLoop_mono hij hj i j 0 0 (by omega) (by omega)

/-- What the byte position of a number of characters should be: the length of so many characters or
of the whole text, from which `getLength` counts them again. -/
structure PositionLaw (cs : List Char) (n : Nat) : Prop where
  position : getBytePosFromUTF (encode cs) (encode cs).length n = some (encode (cs.take n)).length
  count {i} : getBytePosFromUTF (encode cs) (encode cs).length n = some i →
    getLength (encode cs) i = some (min n cs.length)
  mono {m i j} : m ≤ n → getBytePosFromUTF (encode cs) (encode cs).length m = some i →
    getBytePosFromUTF (encode cs) (encode cs).length n = some j → i ≤ j

/-- The two functions are inverse where a character begins or the text ends, and in order. -/
structure Inverse (cs : List Char) : Prop where
  getLength {i k} : Offset cs i k → getLength (encode cs) i = some k
  getBytePosFromUTF {i k} : Offset cs i k →
    getBytePosFromUTF (encode cs) (encode cs).length k = some i
  mono {i j} : i ≤ j → j ≤ (encode cs).length →
    ∃ k l, UTF8Util.getLength (encode cs) i = some k ∧
      UTF8Util.getLength (encode cs) j = some l ∧ k ≤ l

theorem inverse (cs : List Char) : Inverse cs where
  getLength := getLength_offset
  getBytePosFromUTF {i k} h := by
    obtain ⟨j, hj, hoffset⟩ := getBytePosFromUTF_offset cs k h.le_length
    rw [hj, hoffset.unique h]
  mono := getLength_mono

theorem offset_take {cs : List Char} {n : Nat} (h : n ≤ cs.length) :
    Offset cs (encode (cs.take n)).length n :=
  ⟨cs.take n, cs.drop n, (List.take_append_drop n cs).symm, rfl, List.length_take_of_le h⟩

theorem positionLaw_of_le {cs : List Char} {n : Nat} (h : n ≤ cs.length) : PositionLaw cs n where
  position := (inverse cs).getBytePosFromUTF (offset_take h)
  count {i} hi := by
    cases hi.symm.trans ((inverse cs).getBytePosFromUTF (offset_take h))
    rw [getLength_offset (offset_take h), Nat.min_eq_left h]
  mono {m i j} hm hi hj := by
    cases hi.symm.trans ((inverse cs).getBytePosFromUTF (offset_take (Nat.le_trans hm h)))
    cases hj.symm.trans ((inverse cs).getBytePosFromUTF (offset_take h))
    rw [← List.take_append_drop m (cs.take n), List.take_take, Nat.min_eq_left hm, encode_append,
      List.length_append]
    exact Nat.le_add_right _ _

theorem positionLaw_of_ascii {cs : List Char} {n : Nat} (hn : cs.length < n)
    (h : ∀ c ∈ cs, c.toNat < 128) : PositionLaw cs n where
  position := by
    rw [getBytePosFromUTF_beyond hn, List.take_of_length_le (Nat.le_of_lt hn),
      length_encode_eq_iff.mpr h]
  count {i} hi := by
    cases hi.symm.trans (getBytePosFromUTF_beyond hn)
    rw [Nat.min_eq_right (Nat.le_of_lt hn), ← length_encode_eq_iff.mpr h, getLength_offset (.end cs),
      length_encode_eq_iff.mpr h]
  mono {m i j} hm hi hj := by
    cases hj.symm.trans (getBytePosFromUTF_beyond hn)
    rcases Nat.lt_or_ge cs.length m with hm | hm
    · cases hi.symm.trans (getBytePosFromUTF_beyond hm)
      exact Nat.le_refl _
    · cases hi.symm.trans ((inverse cs).getBytePosFromUTF (offset_take hm))
      exact Nat.le_trans (offset_take hm).le (Nat.le_of_eq (length_encode_eq_iff.mpr h))

/-- The two functions are inverse at every offset, and the law of positions holds exactly if the
text has so many characters or is ASCII only. -/
theorem positionLaw_iff (cs : List Char) (n : Nat) : Inverse cs ∧
    (PositionLaw cs n ↔ n ≤ cs.length ∨ ∀ c ∈ cs, c.toNat < 128) := by
  refine ⟨inverse cs, fun h => ?_, fun h => ?_⟩
  · refine or_iff_not_imp_left.mpr fun hn => length_encode_eq_iff.mp ?_
    have hn := Nat.lt_of_not_le hn
    have hposition := h.position
    rw [getBytePosFromUTF_beyond hn, List.take_of_length_le (Nat.le_of_lt hn)] at hposition
    exact (Option.some.inj hposition).symm
  · rcases Nat.lt_or_ge cs.length n with hn | hn
    · exact positionLaw_of_ascii hn (h.resolve_left (Nat.not_le.mpr hn))
    · exact positionLaw_of_le hn

/-- Behind the end of a text of one character of two bytes, the position is inside of the
character. -/
theorem not_positionLaw_twoBytes :
    getBytePosFromUTF (encode ['é']) (encode ['é']).length 2 = some 1 ∧
      ¬ ∀ (cs : List Char) (n : Nat), PositionLaw cs n := by
  refine ⟨by decide, fun h => ?_⟩
  have hposition := (h ['é'] 2).position
  exact absurd hposition (by decide)

end UTF8Util

end McpeLauncher.TextInput
