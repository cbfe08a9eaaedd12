import McpeLauncher.Axml.Bounds
import McpeLauncher.Lib.Utf16

/-!
# The string pool

A string is found by its index through a table of offsets, and read behind a length of one or two
units. The checks compare the offset with the size of the chunk, but the offset counts from
`stringsStart`; and they take the table for one that begins with the chunk.
-/

namespace McpeLauncher.Axml
open Codec

namespace StringPool

def UTF8_FLAG : Nat := 1 <<< 8

def UINT_MAX : Nat := 2 ^ 32 - 1

/-! ## The header -/

def stringCount (m : Mem) (p : Nat) : Nat := read32 m (p + 8)

def flags (m : Mem) (p : Nat) : Nat := read32 m (p + 16)

def stringsStart (m : Mem) (p : Nat) : Nat := read32 m (p + 20)

def utf8 (m : Mem) (p : Nat) : Bool := flags m p &&& UTF8_FLAG ≠ 0

/-! ## Strings -/

/-- The units of a pool, `uint8_t` or `uint16_t`, the bit of a length that goes on, and what is made
of the units of a string. -/
structure Units where
  size : Nat
  more : Nat
  toBytes : List Nat → Option (List UInt8)

def Units.utf8 : Units := ⟨1, 0x80, fun us => some (us.map UInt8.ofNat)⟩

def Units.utf16 : Units := ⟨2, 0x8000, Utf16.toBytes⟩

/-- The units that the constructor chooses. -/
def units (m : Mem) (p : Nat) : Units := if utf8 m p then .utf8 else .utf16

/-- `t[i]`. -/
def Units.get (u : Units) (m : Mem) (t i : Nat) : Nat :=
  leNat ((List.range u.size).map fun k => m (t + i * u.size + k))

def assertSize {α : Type} (cond : Prop) [Decidable cond] (x : Outcome α) : Outcome α :=
  if cond then x else .throw (.outOfRange "Bad size")

/-- Both `decodeLength`: the length and how many units it takes. -/
def decodeLength (u : Units) (m : Mem) (t len : Nat) : Outcome (Nat × Nat) :=
  assertSize (len ≥ 1 * u.size) <| .examine t u.size <|
    let ret := u.get m t 0
    if ret &&& u.more ≠ 0 then
      assertSize (len ≥ 2 * u.size) <| .examine (t + u.size) u.size <|
        .ret (((ret &&& (u.more - 1)) <<< (8 * u.size)) ||| u.get m t 1, 2)
    else .ret (ret, 1)

/-- The two branches of `getStringAtOffset`. A `size_t` has `bits` bits. -/
def stringAt (u : Units) (bits : Nat) (m : Mem) (p offset : Nat) : Outcome (List UInt8) :=
  let header := chunkHeader m p
  let ptr := p + (stringsStart m p + offset) % 2 ^ bits
  (decodeLength u m ptr (header.size - offset)).bind fun (size, lenSize) =>
    assertSize ((offset + (size + lenSize) * u.size) % 2 ^ bits ≤ header.size) <|
      .examine (ptr + lenSize * u.size) (size * u.size) <|
        match u.toBytes ((List.range size).map fun i => u.get m ptr (lenSize + i)) with
        | some str => .ret str
        | none => .throw (.runtimeError "wstring_convert::to_bytes")

/-- The header is null if the file has no string pool. -/
def getStringAtOffset (bits : Nat) (m : Mem) (pool : Option Nat) (offset : Nat) :
    Outcome (List UInt8) :=
  match pool with
  | none => .throw (.runtimeError "No header set")
  | some p => assertSize (offset < (chunkHeader m p).size) (stringAt (units m p) bits m p offset)

def getString (bits : Nat) (m : Mem) (pool : Option Nat) (index : Nat) : Outcome (List UInt8) :=
  match pool with
  | none => .throw (.runtimeError "No header set")
  | some p =>
    if index = UINT_MAX then .ret []
    else if index ≥ stringCount m p then .throw (.outOfRange "Index out of bounds")
    else
      let entry := p + ((chunkHeader m p).headerSize + index * 4) % 2 ^ bits
      assertSize ((index + 1) * 8 % 2 ^ bits ≤ (chunkHeader m p).size) <|
        .examine entry 4 <| getStringAtOffset bits m pool (read32 m entry)

/-! ## Bounds -/

section
variable {α : Type} {m : Mem} {p q n : Nat} {x : Outcome α} {a : α} {e : AxmlError}

end

/-- The length of the string at `t`, and how many units it takes. -/
def lengthAt (u : Units) (m : Mem) (t : Nat) : Nat × Nat :=
  if u.get m t 0 &&& u.more ≠ 0 then
    (((u.get m t 0 &&& (u.more - 1)) <<< (8 * u.size)) ||| u.get m t 1, 2)
  else (u.get m t 0, 1)

/-- The units of the string whose length is at `t`. -/
def stringUnits (u : Units) (m : Mem) (t : Nat) : List Nat :=
  (List.range (lengthAt u m t).1).map fun i => u.get m t ((lengthAt u m t).2 + i)

/-- Where the string at an offset begins, counted from the chunk. -/
def stringStart (bits : Nat) (m : Mem) (p offset : Nat) : Nat :=
  (stringsStart m p + offset) % 2 ^ bits

/-- The bytes of the string at an offset, together with those of its length. -/
def stringSize (bits : Nat) (m : Mem) (p offset : Nat) : Nat :=
  let length := lengthAt (units m p) m (p + stringStart bits m p offset)
  (length.1 + length.2) * (units m p).size

/-- The checks of `getStringAtOffset`, which take the offset for the place in the chunk. -/
structure OffsetAccepted (bits : Nat) (m : Mem) (p offset : Nat) : Prop where
  offset_lt : offset < (chunkHeader m p).size
  length_le : offset +
    (lengthAt (units m p) m (p + stringStart bits m p offset)).2 * (units m p).size ≤
      (chunkHeader m p).size
  end_le : (offset + stringSize bits m p offset) % 2 ^ bits ≤ (chunkHeader m p).size
  text : (units m p).toBytes
    (stringUnits (units m p) m (p + stringStart bits m p offset)) ≠ none

/-- Where the entry of an index is, counted from the chunk. -/
def entryStart (bits : Nat) (m : Mem) (p index : Nat) : Nat :=
  ((chunkHeader m p).headerSize + index * 4) % 2 ^ bits

section

variable {u : Units} {bits p offset index len t : Nat} {m : Mem}

theorem lengthAt_snd (u : Units) (m : Mem) (t : Nat) :
    (lengthAt u m t).2 = 1 ∨ (lengthAt u m t).2 = 2 := by
  unfold lengthAt
  split
  · exact .inr rfl
  · exact .inl rfl

/-- `decodeLength` throws if the units of the length are more than there are bytes. -/
theorem decodeLength_throws (h : len < (lengthAt u m t).2 * u.size) :
    (decodeLength u m t len).2 = some (.error (.outOfRange "Bad size")) := by
  unfold decodeLength assertSize
  split
  · rename_i hone
    rw [lengthAt] at h
    split at h
    · rename_i hmore
      simp only [if_pos hmore, if_neg (Nat.not_le_of_lt h)]
      rfl
    · exact absurd h (Nat.not_lt_of_le hone)
  · rfl

/-- Otherwise it returns the length, and has examined its units. -/
theorem decodeLength_of_le (h : (lengthAt u m t).2 * u.size ≤ len) :
    (decodeLength u m t len).2 = some (.ok (lengthAt u m t)) ∧
      ∀ r ∈ (decodeLength u m t len).1, t ≤ r.1 ∧
        r.1 + r.2 ≤ t + (lengthAt u m t).2 * u.size := by
  have hone : len ≥ 1 * u.size := by
    obtain hsnd | hsnd := lengthAt_snd u m t <;> rw [hsnd] at h <;> omega
  unfold decodeLength assertSize
  rw [if_pos hone]
  by_cases hmore : u.get m t 0 &&& u.more ≠ 0
  · simp only [lengthAt, if_pos hmore] at h ⊢
    simp only [if_pos h]
    refine ⟨rfl, fun r hr => ?_⟩
    simp only [Outcome.examine, Outcome.ret, List.mem_cons, List.not_mem_nil, or_false] at hr
    obtain rfl | rfl := hr <;> simp only <;> omega
  · simp only [lengthAt, if_neg hmore]
    refine ⟨rfl, fun r hr => ?_⟩
    simp only [Outcome.examine, Outcome.ret, List.mem_cons, List.not_mem_nil, or_false] at hr
    obtain rfl := hr
    simp only
    omega

/-- An accepted offset: the string is read in one piece from where it begins. -/
theorem getStringAtOffset_of_accepted (h : OffsetAccepted bits m p offset) :
    (∃ str, (units m p).toBytes
        (stringUnits (units m p) m (p + stringStart bits m p offset)) = some str ∧
        (getStringAtOffset bits m (some p) offset).2 = some (.ok str)) ∧
      (∀ r ∈ (getStringAtOffset bits m (some p) offset).1,
        p + stringStart bits m p offset ≤ r.1 ∧
          r.1 + r.2 ≤ p + stringStart bits m p offset + stringSize bits m p offset) ∧
      ∃ r ∈ (getStringAtOffset bits m (some p) offset).1,
        r.1 + r.2 = p + stringStart bits m p offset + stringSize bits m p offset := by
  obtain ⟨hlt, hlen, hend, htext⟩ := h
  have hroom : (lengthAt (units m p) m (p + stringStart bits m p offset)).2 * (units m p).size ≤
      (chunkHeader m p).size - offset := by omega
  obtain ⟨hok, hreads⟩ := decodeLength_of_le hroom
  rw [getStringAtOffset, assertSize, if_pos hlt]
  simp only [stringAt]
  simp only [stringSize, stringStart, stringUnits] at hok hreads hend htext ⊢
  rw [Outcome.bind_of_ok hok]
  simp only [assertSize, if_pos hend, Outcome.examine, List.mem_append, List.mem_cons]
  have hsum : ∀ a b c : Nat, (a + b) * c = a * c + b * c := Nat.add_mul
  have hlast := hsum (lengthAt (units m p) m (p + (stringsStart m p + offset) % 2 ^ bits)).1
    (lengthAt (units m p) m (p + (stringsStart m p + offset) % 2 ^ bits)).2 (units m p).size
  obtain ⟨str, hstr⟩ := Option.ne_none_iff_exists'.mp htext
  rw [hstr]
  refine ⟨⟨str, rfl, rfl⟩, fun r hr => ?_, _, .inr (.inl rfl), by simp only; omega⟩
  obtain hr | rfl | hr := hr
  · have := hreads r hr
    omega
  · simp only
    omega
  · cases hr

/-- Any other offset makes it throw. -/
theorem getStringAtOffset_of_not_accepted (h : ¬OffsetAccepted bits m p offset) :
    ∃ e, (getStringAtOffset bits m (some p) offset).2 = some (.error e) := by
  rw [getStringAtOffset, assertSize]
  split
  · rename_i hlt
    simp only [stringAt]
    by_cases hlen : (lengthAt (units m p) m (p + stringStart bits m p offset)).2 *
        (units m p).size ≤ (chunkHeader m p).size - offset
    · obtain ⟨hok, -⟩ := decodeLength_of_le hlen
      simp only [stringStart] at hok
      rw [Outcome.bind_snd_of_ok hok]
      simp only [assertSize]
      split
      · rename_i hend
        split
        · rename_i str hstr
          refine absurd ⟨hlt, by omega, hend, ?_⟩ h
          simp only [stringStart, stringUnits]
          rw [hstr]
          exact Option.some_ne_none str
        · exact ⟨_, rfl⟩
      · exact ⟨_, rfl⟩
    · exact ⟨_, Outcome.bind_snd_of_error (decodeLength_throws (Nat.lt_of_not_le hlen))⟩
  · exact ⟨_, rfl⟩

/-- An index that is in the table and passes the check: its entry is read, and then its string. -/
theorem getString_of_checked (hcount : index < stringCount m p)
    (hcheck : (index + 1) * 8 % 2 ^ bits ≤ (chunkHeader m p).size) :
    getString bits m (some p) index = .examine (p + entryStart bits m p index) 4
      (getStringAtOffset bits m (some p) (read32 m (p + entryStart bits m p index))) := by
  have hmax : index ≠ UINT_MAX := by
    have hlt := leNat_lt [m (p + 8), m (p + 8 + 1), m (p + 8 + 2), m (p + 8 + 3)]
    simp only [List.length_cons, List.length_nil, Nat.reduceAdd, Nat.reducePow] at hlt
    simp only [stringCount, read32] at hcount
    simp only [UINT_MAX]
    omega
  rw [getString, if_neg hmax, if_neg (Nat.not_le_of_lt hcount), assertSize, if_pos hcheck]
  rfl

end

end StringPool
end McpeLauncher.Axml
