import Mathlib.Data.Nat.Bitwise
import McpeLauncher.Axml.StringPool

/-!
# Well-formed string pools

In UTF-16 a string has its number of units in front of it. In UTF-8 it has two lengths, the one in
UTF-16 units and then the one in bytes. The reader takes the first one for the number of bytes, and
what is behind it for the string.
-/

namespace McpeLauncher.Axml
open Codec

namespace StringPool

/-- A length, in two units if it does not fit in one. -/
def lengthUnits (u : Units) (n : Nat) : List Nat :=
  if n < u.more then [n] else [u.more + n / 2 ^ (8 * u.size), n % 2 ^ (8 * u.size)]

/-- A length can be written if two units are enough. -/
def LengthFits (u : Units) (n : Nat) : Prop := n < u.more * 2 ^ (8 * u.size)

/-- The units of a string in a pool, with its lengths and the zero at the end. -/
def poolUnits (utf8 : Bool) (s : List Char) : List Nat :=
  if utf8 then
    lengthUnits .utf8 (Utf16.encode s).length ++ lengthUnits .utf8 (Utf8.encode s).length ++
      (Utf8.encode s).map UInt8.toNat ++ [0]
  else lengthUnits .utf16 (Utf16.encode s).length ++ Utf16.encode s ++ [0]

/-- The lengths of a string can be written. -/
def LengthsFit (utf8 : Bool) (s : List Char) : Prop :=
  if utf8 then LengthFits .utf8 (Utf16.encode s).length ∧ LengthFits .utf8 (Utf8.encode s).length
  else LengthFits .utf16 (Utf16.encode s).length

/-- The memory has the units `us` at `t`. -/
def HoldsUnits (u : Units) (m : Mem) (t : Nat) (us : List Nat) : Prop :=
  ∀ i, (h : i < us.length) → u.get m t i = us[i]

/-- The string of an offset is in the chunk, up to its zero. -/
structure HasString (m : Mem) (p offset : Nat) (s : List Char) : Prop where
  lengths : LengthsFit (utf8 m p) s
  units : HoldsUnits (units m p) m (p + (stringsStart m p + offset)) (poolUnits (utf8 m p) s)
  fits : stringsStart m p + offset + (poolUnits (utf8 m p) s).length * (StringPool.units m p).size ≤
    (chunkHeader m p).size

/-- The chunk at `p` is a pool of the strings: the header, the table of offsets behind it, and
behind the table the strings, in any order and with any space between them. -/
structure WellFormed (m : Mem) (p : Nat) (strings : List (List Char)) : Prop where
  type : (chunkHeader m p).type = ChunkHeader.typeStringPool
  headerSize : (chunkHeader m p).headerSize = sizeofStringPoolHeader
  count : stringCount m p = strings.length
  table : sizeofStringPoolHeader + 4 * strings.length ≤ stringsStart m p
  string : ∀ i, (h : i < strings.length) →
    HasString m p (read32 m (p + (sizeofStringPoolHeader + i * 4))) strings[i]

/-- A string of `n` characters that are all `n` themselves. In UTF-8 its two lengths are the same,
and the second one is the same as its characters. -/
def ReadsAlike (s : List Char) : Prop := ∃ n ≤ 127, s = List.replicate n (Char.ofNat n)

/-! ## Lengths -/

section Lengths

variable {u : Units} {k n t : Nat} {m : Mem} {us : List Nat}

/-- The highest bit of a unit says that the length goes on. -/
theorem and_more_eq_zero (h : n < 2 ^ k) : n &&& 2 ^ k = 0 := by
  rw [Nat.and_two_pow, Nat.testBit_lt_two_pow h]
  exact Nat.zero_mul _

theorem add_and_more (h : n < 2 ^ k) : (2 ^ k + n) &&& 2 ^ k ≠ 0 := by
  rw [Nat.and_two_pow, Nat.testBit_two_pow_add_eq, Nat.testBit_lt_two_pow h]
  exact Nat.mul_ne_zero (by decide) (Nat.pos_iff_ne_zero.mp (Nat.two_pow_pos k))

theorem add_and_pred_more (h : n < 2 ^ k) : (2 ^ k + n) &&& (2 ^ k - 1) = n := by
  rw [Nat.and_two_pow_sub_one_eq_mod, Nat.add_mod_left, Nat.mod_eq_of_lt h]

/-- A length is read back as it was written. -/
theorem lengthAt_of_holdsUnits (hmore : u.more = 2 ^ k) (hn : LengthFits u n)
    (h : HoldsUnits u m t (lengthUnits u n ++ us)) :
    lengthAt u m t = (n, (lengthUnits u n).length) := by
  rw [LengthFits, hmore] at hn
  unfold lengthAt
  unfold lengthUnits at h ⊢
  split at h
  · rename_i hlt
    have h0 : u.get m t 0 = n := h 0 (by simp)
    rw [if_pos hlt, h0, hmore, if_neg (by rw [and_more_eq_zero (hmore ▸ hlt)]; decide)]
    rfl
  · rename_i hlt
    have h0 : u.get m t 0 = u.more + n / 2 ^ (8 * u.size) := h 0 (by simp)
    have h1 : u.get m t 1 = n % 2 ^ (8 * u.size) := h 1 (by simp)
    have hhigh : n / 2 ^ (8 * u.size) < 2 ^ k := (Nat.div_lt_iff_lt_mul (Nat.two_pow_pos _)).mpr hn
    have hlow : n % 2 ^ (8 * u.size) < 2 ^ (8 * u.size) := Nat.mod_lt _ (Nat.two_pow_pos _)
    rw [if_neg hlt, h0, h1, hmore, if_pos (add_and_more hhigh), add_and_pred_more hhigh,
      ← Nat.shiftLeft_add_eq_or_of_lt hlow, Nat.shiftLeft_eq, Nat.div_add_mod']
    rfl

/-- The units behind a length. -/
theorem stringUnits_of_holdsUnits (hmore : u.more = 2 ^ k) (hn : LengthFits u n)
    (hlen : n ≤ us.length) (h : HoldsUnits u m t (lengthUnits u n ++ us)) :
    stringUnits u m t = us.take n := by
  rw [stringUnits, lengthAt_of_holdsUnits hmore hn h]
  apply List.ext_getElem
  · simp only [List.length_map, List.length_range, List.length_take]
    omega
  · intro i hi hi'
    simp only [List.length_map, List.length_range] at hi
    rw [List.getElem_map, List.getElem_range, List.getElem_take]
    refine (h _ (by rw [List.length_append]; omega)).trans ?_
    rw [List.getElem_append_right (Nat.le_add_right _ _)]
    simp only [Nat.add_sub_cancel_left]

end Lengths

/-! ## Strings -/

section Strings

variable {s : List Char} {bits p offset : Nat} {m : Mem} {strings : List (List Char)}

/-- What the reader takes for the string of an offset. -/
def readUnits (utf8 : Bool) (s : List Char) : List Nat :=
  if utf8 then
    (lengthUnits .utf8 (Utf8.encode s).length ++ (Utf8.encode s).map UInt8.toNat ++ [0]).take
      (Utf16.encode s).length
  else Utf16.encode s

/-- The first length is read right, and as many units behind it are taken. -/
theorem HasString.read (h : HasString m p offset s) :
    lengthAt (StringPool.units m p) m (p + (stringsStart m p + offset)) =
        ((Utf16.encode s).length,
          (lengthUnits (StringPool.units m p) (Utf16.encode s).length).length) ∧
      stringUnits (StringPool.units m p) m (p + (stringsStart m p + offset)) =
        readUnits (utf8 m p) s := by
  obtain ⟨hlengths, hunits, -⟩ := h
  unfold StringPool.units at hunits ⊢
  unfold LengthsFit at hlengths
  unfold poolUnits at hunits
  unfold readUnits
  cases hflag : utf8 m p with
  | true =>
    simp only [hflag, if_true, List.append_assoc] at hlengths hunits ⊢
    have hle := Utf16.encode_length_le s
    refine ⟨lengthAt_of_holdsUnits (k := 7) rfl hlengths.1 hunits,
      stringUnits_of_holdsUnits (k := 7) rfl hlengths.1 ?_ hunits⟩
    simp only [List.length_append, List.length_map]
    omega
  | false =>
    simp only [hflag, Bool.false_eq_true, if_false, List.append_assoc] at hlengths hunits ⊢
    refine ⟨lengthAt_of_holdsUnits (k := 15) rfl hlengths hunits, ?_⟩
    rw [stringUnits_of_holdsUnits (k := 15) rfl hlengths (by simp) hunits, List.take_left]

/-- The string with the first length is shorter than all that is written. -/
theorem length_lt_poolUnits (m : Mem) (p : Nat) (s : List Char) :
    (Utf16.encode s).length +
        (lengthUnits (StringPool.units m p) (Utf16.encode s).length).length <
      (poolUnits (utf8 m p) s).length := by
  have hle := Utf16.encode_length_le s
  unfold poolUnits StringPool.units
  split
  · simp only [List.length_append, List.length_map, List.length_singleton]
    omega
  · simp only [List.length_append, List.length_singleton]
    omega

/-- A string of the pool passes the checks, and what is returned is made of what is read. -/
theorem HasString.getStringAtOffset (hbits : 32 ≤ bits) (h : HasString m p offset s) :
    (StringPool.getStringAtOffset bits m (some p) offset).2 =
        some (.ok (Utf8.encode s)) ↔
      (StringPool.units m p).toBytes (readUnits (utf8 m p) s) = some (Utf8.encode s) := by
  have hpow : 2 ^ 32 ≤ 2 ^ bits := Nat.pow_le_pow_right (by decide) hbits
  have hsize := size_lt m p
  have hfits := h.fits
  obtain ⟨hlength, hread⟩ := h.read
  have hlt := length_lt_poolUnits m p s
  have hpos : 1 ≤ (StringPool.units m p).size := by
    unfold StringPool.units
    split <;> decide
  have hbytes : ((Utf16.encode s).length +
      (lengthUnits (StringPool.units m p) (Utf16.encode s).length).length) *
        (StringPool.units m p).size < (poolUnits (utf8 m p) s).length *
          (StringPool.units m p).size := Nat.mul_lt_mul_of_pos_right hlt hpos
  have hprefix : (lengthUnits (StringPool.units m p) (Utf16.encode s).length).length *
      (StringPool.units m p).size ≤ ((Utf16.encode s).length +
        (lengthUnits (StringPool.units m p) (Utf16.encode s).length).length) *
          (StringPool.units m p).size := Nat.mul_le_mul_right _ (Nat.le_add_left _ _)
  have hstart : stringStart bits m p offset = stringsStart m p + offset :=
    Nat.mod_eq_of_lt (by omega)
  constructor
  · intro hresult
    by_cases hok : OffsetAccepted bits m p offset
    · obtain ⟨⟨str, hstr, hstr'⟩, -⟩ := getStringAtOffset_of_accepted hok
      cases hstr'.symm.trans hresult
      rwa [hstart, hread] at hstr
    · obtain ⟨e, he⟩ := getStringAtOffset_of_not_accepted hok
      cases he.symm.trans hresult
  · intro htext
    have hok : OffsetAccepted bits m p offset := by
      refine ⟨by omega, ?_, ?_, ?_⟩
      · rw [hstart, hlength]
        simp only
        omega
      · rw [stringSize, hstart, hlength, Nat.mod_eq_of_lt (by simp only; omega)]
        simp only
        omega
      · rw [hstart, hread, htext]
        exact Option.some_ne_none _
    obtain ⟨⟨str, hstr, hresult⟩, -⟩ := getStringAtOffset_of_accepted hok
    rw [hstart, hread, htext] at hstr
    cases hstr
    exact hresult

end Strings

/-! ## Strings that are read alike -/

section Ascii

variable {s : List Char} {n k : Nat}

/-- Text of one byte for each character. -/
theorem encode_of_ascii (h : ∀ c ∈ s, c.utf8Size = 1) :
    Utf8.encode s = s.map fun c => UInt8.ofNat c.toNat := by
  induction s with
  | nil => rfl
  | cons c s ih =>
    rw [Utf8.encode_cons, ih fun d hd => h d (.tail _ hd),
      String.utf8EncodeChar_eq_singleton (h c (.head _))]
    rfl

theorem toNat_le_of_ascii {c : Char} (h : c.utf8Size = 1) : c.toNat ≤ 127 :=
  UInt32.le_iff_toNat_le.mp (Char.utf8Size_eq_one_iff.mp h)

theorem toNat_charOfNat (hn : n ≤ 127) : (Char.ofNat n).toNat = n :=
  (by decide : ∀ n ≤ 127, (Char.ofNat n).toNat = n) n hn

theorem encode_replicate (hn : n ≤ 127) :
    Utf8.encode (List.replicate k (Char.ofNat n)) = List.replicate k (UInt8.ofNat n) ∧
      (Utf16.encode (List.replicate k (Char.ofNat n))).length = k := by
  have hchar := toNat_charOfNat hn
  have hsize : (Char.ofNat n).utf8Size = 1 := by
    rw [Char.utf8Size_eq_one_iff, UInt32.le_iff_toNat_le]
    exact hchar.trans_le hn
  constructor
  · rw [encode_of_ascii fun c hc => List.eq_of_mem_replicate hc ▸ hsize, List.map_replicate, hchar]
  · induction k with
    | zero => rfl
    | succ k ih =>
      rw [List.replicate_succ, Utf16.encode_cons, List.length_append, ih, Utf16.units, hchar,
        if_pos (by omega)]
      exact Nat.add_comm 1 k

/-- A list that is its own tail, shifted by one, repeats its first element. -/
theorem eq_replicate_of_shift {l : List UInt8} {x : UInt8} (h : x :: l.take (l.length - 1) = l) :
    l = List.replicate l.length x := by
  have hall : ∀ i, (hi : i < l.length) → l[i] = x := by
    intro i
    induction i with
    | zero =>
      intro hi
      rw [← List.getElem_of_eq h (by simp)]
      rfl
    | succ i ih =>
      intro hi
      rw [← List.getElem_of_eq h (by simp only [List.length_cons, List.length_take]; omega),
        List.getElem_cons_succ, List.getElem_take]
      exact ih (by omega)
  refine List.eq_replicate_iff.mpr ⟨rfl, fun b hb => ?_⟩
  obtain ⟨i, hi, rfl⟩ := List.getElem_of_mem hb
  exact hall i hi

/-- Repetitions of the character that has the number of them as its code are read alike. -/
theorem readUnits_replicate (hn : n ≤ 127) :
    (readUnits true (List.replicate n (Char.ofNat n))).map UInt8.ofNat =
      Utf8.encode (List.replicate n (Char.ofNat n)) := by
  obtain ⟨hbytes, hunits⟩ := encode_replicate (k := n) hn
  have hsmall : n < Units.utf8.more := Nat.lt_succ_of_le hn
  rw [readUnits, if_pos rfl, hbytes, hunits, List.length_replicate, lengthUnits, if_pos hsmall,
    List.map_replicate, UInt8.toNat_ofNat', Nat.mod_eq_of_lt (by omega), List.singleton_append,
    ← List.replicate_succ, List.take_append_of_le_length (by rw [List.length_replicate]; omega),
    List.take_replicate, List.map_replicate, Nat.min_eq_left (Nat.le_succ n)]

/-- A text of one byte for each character that begins with its length and goes on with itself is
read alike. -/
theorem readsAlike_of_shift (hascii : ∀ c ∈ s, c.utf8Size = 1) (hlen : s.length = k + 1)
    (hsmall : k + 1 < 128)
    (hshift : UInt8.ofNat (k + 1) :: (Utf8.encode s).take k = Utf8.encode s) : ReadsAlike s := by
  have hbytes := encode_of_ascii hascii
  have hcount : (Utf8.encode s).length = k + 1 := by rw [hbytes, List.length_map, hlen]
  have hrep : Utf8.encode s = List.replicate (Utf8.encode s).length (UInt8.ofNat (k + 1)) :=
    eq_replicate_of_shift (by rw [hcount]; exact hshift)
  refine ⟨k + 1, by omega, List.eq_replicate_iff.mpr ⟨hlen, fun d hd => ?_⟩⟩
  have hd' : UInt8.ofNat d.toNat ∈ Utf8.encode s := by
    rw [hbytes]
    exact List.mem_map_of_mem hd
  rw [hrep] at hd'
  have heq := congrArg UInt8.toNat (List.eq_of_mem_replicate hd')
  have hd127 := toNat_le_of_ascii (hascii d hd)
  rw [UInt8.toNat_ofNat', UInt8.toNat_ofNat', Nat.mod_eq_of_lt (by omega),
    Nat.mod_eq_of_lt (by omega)] at heq
  rw [← heq, Char.ofNat_toNat]

/-- In UTF-8 the second length is taken for the first character: that makes no difference only if
they are the same. -/
theorem readUnits_eq_iff (hfits : LengthFits .utf8 (Utf8.encode s).length) :
    (readUnits true s).map UInt8.ofNat = Utf8.encode s ↔ ReadsAlike s := by
  refine ⟨fun h => ?_, fun ⟨n, hn, hs⟩ => hs ▸ readUnits_replicate hn⟩
  simp only [readUnits, if_true] at h
  have hle := Utf16.encode_length_le s
  have hlen := congrArg List.length h
  simp only [List.length_map, List.length_take, List.length_append, List.length_singleton] at hlen
  have hunits : (Utf16.encode s).length = (Utf8.encode s).length := by omega
  have hascii := Utf16.utf8Size_of_length_eq hunits
  have hbytes := encode_of_ascii hascii
  have hcount : (Utf8.encode s).length = s.length := by rw [hbytes, List.length_map]
  rw [hunits] at h
  cases s with
  | nil => exact ⟨0, by decide, rfl⟩
  | cons c s =>
    rw [hcount, List.length_cons] at h hfits
    unfold lengthUnits at h
    split at h
    next hsmall =>
      refine readsAlike_of_shift hascii rfl hsmall ?_
      rw [List.append_assoc, List.singleton_append, List.take_succ_cons, List.map_cons,
        List.take_append_of_le_length (by rw [List.length_map, hcount, List.length_cons]; omega),
        ← List.map_take, List.map_map] at h
      simpa [Function.comp_def] using h
    next hlarge =>
      -- the second length begins with a byte that is no ASCII byte
      have hlarge : ¬s.length + 1 < 128 := hlarge
      have hfits : s.length + 1 < 128 * 2 ^ 8 := hfits
      rw [List.append_assoc, List.cons_append, List.take_succ_cons, List.map_cons, hbytes,
        List.map_cons] at h
      have heq := congrArg UInt8.toNat (List.cons.inj h).1
      have hc := toNat_le_of_ascii (hascii c (.head _))
      change (UInt8.ofNat (128 + (s.length + 1) / 2 ^ 8)).toNat = _ at heq
      rw [UInt8.toNat_ofNat', UInt8.toNat_ofNat', Nat.mod_eq_of_lt (by omega),
        Nat.mod_eq_of_lt (by omega)] at heq
      omega

end Ascii

section

variable {bits p i : Nat} {m : Mem} {strings : List (List Char)}

theorem HasString.toBytes_iff {offset : Nat} {s : List Char} (h : HasString m p offset s) :
    (StringPool.units m p).toBytes (readUnits (utf8 m p) s) = some (Utf8.encode s) ↔
      utf8 m p = false ∨ ReadsAlike s := by
  have hlengths := h.lengths
  unfold LengthsFit at hlengths
  unfold StringPool.units
  cases hflag : utf8 m p with
  | true =>
    simp only [hflag, if_true] at hlengths ⊢
    rw [← readUnits_eq_iff hlengths.2]
    simp only [Units.utf8, Option.some.injEq, Bool.true_eq_false, false_or]
  | false =>
    refine iff_of_true ?_ (.inl rfl)
    exact Utf16.toBytes_encode s

/-- A string of a well-formed pool is decoded if and only if eight bytes for each index up to its
own are not more than the chunk has, and in UTF-8 only if it is read alike. -/
theorem getString_decodes_iff (hbits : 32 ≤ bits) (h : WellFormed m p strings)
    (hi : i < strings.length) :
    (getString bits m (some p) i).2 = some (.ok (Utf8.encode strings[i])) ↔
      (i + 1) * 8 % 2 ^ bits ≤ (chunkHeader m p).size ∧
        (utf8 m p = false ∨ ReadsAlike strings[i]) := by
  have hpow : 2 ^ 32 ≤ 2 ^ bits := Nat.pow_le_pow_right (by decide) hbits
  have hcount : i < stringCount m p := h.count ▸ hi
  have hstring := h.string i hi
  have htable := h.table
  have hstart : stringsStart m p < 2 ^ 32 := read32_lt m (p + 20)
  have hentry : entryStart bits m p i = sizeofStringPoolHeader + i * 4 := by
    rw [entryStart, h.headerSize, Nat.mod_eq_of_lt (by omega)]
  by_cases hcheck : (i + 1) * 8 % 2 ^ bits ≤ (chunkHeader m p).size
  · rw [getString_of_checked hcount hcheck, hentry, Outcome.examine_snd,
      hstring.getStringAtOffset hbits, hstring.toBytes_iff]
    exact (and_iff_right hcheck).symm
  · refine iff_of_false (fun hresult => ?_) fun hcond => hcheck hcond.1
    rw [getString] at hresult
    split at hresult
    · rename_i hmax
      have hlt := read32_lt m (p + 8)
      simp only [stringCount] at hcount
      simp only [UINT_MAX] at hmax
      omega
    · rw [if_neg (Nat.not_le_of_lt hcount), assertSize, if_neg hcheck] at hresult
      cases hresult

end

/-- A pool of one empty string in UTF-16, which ends where the chunk ends. -/
def emptyStringPool : List UInt8 :=
  [1, 0, 28, 0, 36, 0, 0, 0, 1, 0, 0, 0, 0, 0, 0, 0, 0, 0, 0, 0, 32, 0, 0, 0, 0, 0, 0, 0] ++
    [0, 0, 0, 0, 0, 0, 0, 0]

theorem getString_decodes_emptyStringPool :
    (getString 64 (memOf emptyStringPool) (some 0) 0).2 = some (.ok []) := by
  have hstring : HasString (memOf emptyStringPool) 0 0 [] :=
    ⟨by unfold LengthsFit LengthFits; decide, by unfold HoldsUnits; decide, by decide⟩
  have hwf : WellFormed (memOf emptyStringPool) 0 [[]] := by
    refine ⟨by decide, by decide, by decide, by decide, fun i hi => ?_⟩
    obtain rfl : i = 0 := Nat.lt_one_iff.mp hi
    exact hstring
  exact (getString_decodes_iff (by decide) hwf Nat.zero_lt_one).mpr ⟨by decide, .inl (by decide)⟩

/-- A pool of the string `a` in UTF-8: both lengths are 1. -/
def asciiPool : List UInt8 :=
  [1, 0, 28, 0, 36, 0, 0, 0, 1, 0, 0, 0, 0, 0, 0, 0, 0, 1, 0, 0, 32, 0, 0, 0, 0, 0, 0, 0] ++
    [0, 0, 0, 0, 1, 1, 97, 0]

/-- The second length is returned instead of the string. -/
theorem getString_asciiPool :
    WellFormed (memOf asciiPool) 0 [['a']] ∧
      (getString 64 (memOf asciiPool) (some 0) 0).2 = some (.ok [1]) ∧
      (getString 64 (memOf asciiPool) (some 0) 0).2 ≠ some (.ok (Utf8.encode ['a'])) := by
  have hget : (getString 64 (memOf asciiPool) (some 0) 0).2 = some (.ok [1]) := by decide +kernel
  have hstring : HasString (memOf asciiPool) 0 0 ['a'] :=
    ⟨by unfold LengthsFit LengthFits; decide, by unfold HoldsUnits; decide, by decide⟩
  refine ⟨⟨by decide, by decide, by decide, by decide, fun i hi => ?_⟩, hget, fun h => ?_⟩
  · obtain rfl : i = 0 := Nat.lt_one_iff.mp hi
    exact hstring
  · cases hget.symm.trans h

end StringPool
end McpeLauncher.Axml
