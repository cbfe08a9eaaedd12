import McpeLauncher.Axml.Bounds

/-!
# The attributes of a start element

The sum that `next` compares with the size of the chunk is one of 32 bits. It cannot wrap: with the
largest 16-bit values in all four fields it is `2 ^ 32 - 1`.
-/

namespace McpeLauncher.Axml
open Codec AxmlParser

namespace AxmlParser

/-- The end of the attribute list, from the start of the chunk, as `next` computes it. -/
def attributeListEnd (m : Mem) (p : Nat) : UInt32 :=
  let header := chunkHeader m p
  let data := p + header.headerSize
  UInt32.ofNat header.headerSize + UInt32.ofNat (read16 m (data + 8)) +
    UInt32.ofNat (read16 m (data + 10)) * UInt32.ofNat (read16 m (data + 12))

/-- The address is one of `w` bits, and `data` is at `base`. -/
def getElementAttribute (w base : Nat) (m : Mem) (s : AxmlParser) (i : Nat) :
    Except AxmlError Nat :=
  let data := getNode m s
  if i ≥ read16 m (data + 12) then .error (.outOfRange "Invalid attribute index")
  else .ok ((base + data + read16 m (data + 8) + read16 m (data + 10) * i) % 2 ^ w)

end AxmlParser

section

variable {m : Mem} {p e : Nat} {s s' : AxmlParser}

/-- Nothing is lost in the 32 bits of the sum. -/
theorem attributeListEnd_toNat (m : Mem) (p : Nat) :
    (attributeListEnd m p).toNat =
      (chunkHeader m p).headerSize + read16 m (p + (chunkHeader m p).headerSize + 8) +
        read16 m (p + (chunkHeader m p).headerSize + 10) *
          read16 m (p + (chunkHeader m p).headerSize + 12) := by
  have hheader := headerSize_lt m p
  have hstart := read16_lt m (p + (chunkHeader m p).headerSize + 8)
  have hsize := read16_lt m (p + (chunkHeader m p).headerSize + 10)
  have hcount := read16_lt m (p + (chunkHeader m p).headerSize + 12)
  have hprod : read16 m (p + (chunkHeader m p).headerSize + 10) *
      read16 m (p + (chunkHeader m p).headerSize + 12) ≤ 65535 * 65535 :=
    Nat.mul_le_mul (by omega) (by omega)
  simp only [attributeListEnd, UInt32.toNat_add, UInt32.toNat_mul, UInt32.toNat_ofNat']
  rw [Nat.mod_eq_of_lt (show (chunkHeader m p).headerSize < 2 ^ 32 by omega),
    Nat.mod_eq_of_lt (show read16 m (p + (chunkHeader m p).headerSize + 8) < 2 ^ 32 by omega),
    Nat.mod_eq_of_lt (show read16 m (p + (chunkHeader m p).headerSize + 10) < 2 ^ 32 by omega),
    Nat.mod_eq_of_lt (show read16 m (p + (chunkHeader m p).headerSize + 12) < 2 ^ 32 by omega),
    Nat.mod_eq_of_lt (by omega), Nat.mod_eq_of_lt (by omega), Nat.mod_eq_of_lt (by omega)]

/-- The checks of a start element in terms of the sum in 32 bits. -/
theorem checkStartElement_ok_iff :
    checkStartElement m p (chunkHeader m p) = .ok () ↔
      checkNode sizeofStartElementChunkData (chunkHeader m p) = .ok () ∧
      sizeofAttributeChunkData ≤ read16 m (p + (chunkHeader m p).headerSize + 10) ∧
      (attributeListEnd m p).toNat ≤ (chunkHeader m p).size := by
  rw [attributeListEnd_toNat]
  unfold checkStartElement
  cases checkNode sizeofStartElementChunkData (chunkHeader m p) with
  | error x => simp
  | ok _ =>
    simp only [true_and]
    split
    · rename_i hsize
      exact ⟨fun h => (by cases h), fun h => absurd h.1 (by omega)⟩
    · rename_i hsize
      split
      · rename_i hend
        exact ⟨fun h => (by cases h), fun h => absurd h.2 (by omega)⟩
      · rename_i hend
        exact ⟨fun _ => ⟨by omega, by omega⟩, fun _ => rfl⟩

/-- A start element that `next` reports has passed the checks. -/
theorem event_startElement (h : event m p = some (.ok .startElement)) :
    (chunkHeader m p).type = ChunkHeader.typeXmlStartElement ∧
      checkStartElement m p (chunkHeader m p) = .ok () := by
  simp only [event] at h
  split at h
  · obtain ⟨_, -, hev⟩ := map_ok (Option.some.inj h)
    split at hev <;> cases hev
  split at h
  · rename_i htype
    obtain ⟨⟨⟩, hcheck, -⟩ := map_ok (Option.some.inj h)
    exact ⟨htype, hcheck⟩
  split at h
  · obtain ⟨_, -, hev⟩ := map_ok (Option.some.inj h)
    cases hev
  · cases h

/-- The record of an attribute whose index is below the count ends where the next one starts, which
is before the end of the list. -/
theorem attribute_le {size count i : Nat} (hsize : sizeofAttributeChunkData ≤ size)
    (hi : i < count) : size * i + sizeofAttributeChunkData ≤ size * count :=
  calc size * i + sizeofAttributeChunkData
    _ ≤ size * i + size := Nat.add_le_add_left hsize _
    _ = size * (i + 1) := rfl
    _ ≤ size * count := Nat.mul_le_mul_left _ hi

/-- The attributes of a start element are inside its chunk: `getElementAttribute` either throws
because the index is not below the count, or it returns the address of a record that starts `q`
bytes behind the chunk and ends inside it. -/
theorem getElementAttribute_inside (w base fuel i : Nat)
    (hnext : AxmlParser.next m e fuel s = some (.ok (true, s')))
    (hev : s'.evType = some .startElement) :
    if i < read16 m (getNode m s' + 12) then
      ∃ q, getElementAttribute w base m s' i = .ok ((base + s'.rangeIt + q) % 2 ^ w) ∧
        q + sizeofAttributeChunkData ≤ (chunkHeader m s'.rangeIt).size
    else getElementAttribute w base m s' i = .error (.outOfRange "Invalid attribute index") := by
  obtain ⟨-, -, ev, hev', hevent⟩ := next_walk hnext
  cases hev.symm.trans hev'
  obtain ⟨-, hcheck⟩ := event_startElement hevent
  obtain ⟨-, hsize, hend⟩ := checkStartElement_ok_iff.mp hcheck
  rw [attributeListEnd_toNat] at hend
  simp only [getElementAttribute, getNode, ge_iff_le]
  split
  · rename_i hi
    have hrecord := attribute_le hsize hi
    rw [if_neg (by omega)]
    refine ⟨(chunkHeader m s'.rangeIt).headerSize +
      read16 m (s'.rangeIt + (chunkHeader m s'.rangeIt).headerSize + 8) +
      read16 m (s'.rangeIt + (chunkHeader m s'.rangeIt).headerSize + 10) * i, ?_, by omega⟩
    congr 2
    omega
  · rename_i hi
    rw [if_pos (by omega)]

end

/-- A start element with one attribute, whose record ends where the chunk ends. -/
def oneAttribute : List UInt8 :=
  [2, 1, 16, 0, 56, 0, 0, 0, 0, 0, 0, 0, 255, 255, 255, 255] ++
    [255, 255, 255, 255, 1, 0, 0, 0, 20, 0, 20, 0, 1, 0, 0, 0, 0, 0, 0, 0] ++
    [255, 255, 255, 255, 2, 0, 0, 0, 255, 255, 255, 255, 8, 0, 0, 0x10, 7, 0, 0, 0]

theorem getElementAttribute_inside_oneAttribute :
    let m := memOf oneAttribute
    let s' : AxmlParser := ⟨0, false, some .startElement⟩
    AxmlParser.next m 56 1 ⟨0, true, none⟩ = some (.ok (true, s')) ∧
      if 0 < read16 m (getNode m s' + 12) then
        ∃ q, getElementAttribute 64 4096 m s' 0 = .ok ((4096 + s'.rangeIt + q) % 2 ^ 64) ∧
          q + sizeofAttributeChunkData ≤ (chunkHeader m s'.rangeIt).size
      else getElementAttribute 64 4096 m s' 0 =
        .error (.outOfRange "Invalid attribute index") :=
  have hnext : AxmlParser.next (memOf oneAttribute) 56 1 ⟨0, true, none⟩ =
      some (.ok (true, ⟨0, false, some .startElement⟩)) := by decide +kernel
  ⟨hnext, getElementAttribute_inside 64 4096 1 0 hnext rfl⟩

end McpeLauncher.Axml
