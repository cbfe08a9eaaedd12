import McpeLauncher.Lib.Codec

/-!
# The parser of binary XML

Chunks are found by following the sizes in their headers. Offsets count from `data`, and the memory
is what is there at every offset, also behind the buffer. The recursive functions take fuel; `none`
is a run that has not ended.
-/

namespace McpeLauncher.Axml
open Codec

abbrev Mem := Nat → UInt8

def read16 (m : Mem) (p : Nat) : Nat := leNat [m p, m (p + 1)]

def read32 (m : Mem) (p : Nat) : Nat := leNat [m p, m (p + 1), m (p + 2), m (p + 3)]

structure ChunkHeader where
  type : Nat
  headerSize : Nat
  size : Nat
  deriving DecidableEq

namespace ChunkHeader

def typeStringPool : Nat := 1
def typeXml : Nat := 3
def typeXmlStartNamespace : Nat := 0x100
def typeXmlEndNamespace : Nat := 0x101
def typeXmlStartElement : Nat := 0x102
def typeXmlEndElement : Nat := 0x103

end ChunkHeader

def sizeofChunkHeader : Nat := 8
def sizeofStringPoolHeader : Nat := 28
def sizeofXMLNodeChunkHeader : Nat := 16
def sizeofNamespaceChunkData : Nat := 8
def sizeofElementChunkData : Nat := 8
def sizeofStartElementChunkData : Nat := 20
def sizeofAttributeChunkData : Nat := 20

def chunkHeader (m : Mem) (p : Nat) : ChunkHeader :=
  ⟨read16 m p, read16 m (p + 2), read32 m (p + 4)⟩

inductive AxmlError
  | outOfRange (what : String)
  | runtimeError (what : String)
  deriving DecidableEq

/-- The structures that are examined, as offset and length, and how the run ends. -/
abbrev Outcome (α : Type) := List (Nat × Nat) × Option (Except AxmlError α)

namespace Outcome

def throw {α : Type} (x : AxmlError) : Outcome α := ([], some (.error x))

def ret {α : Type} (a : α) : Outcome α := ([], some (.ok a))

def examine {α : Type} (p n : Nat) (x : Outcome α) : Outcome α := ((p, n) :: x.1, x.2)

def bind {α β : Type} (x : Outcome α) (f : α → Outcome β) : Outcome β :=
  match x.2 with
  | none => (x.1, none)
  | some (.error e) => (x.1, some (.error e))
  | some (.ok a) => (x.1 ++ (f a).1, (f a).2)

end Outcome

/-- `ChunkHeaderRange::validate` of the range from `p` to `e`. -/
def validate (m : Mem) : Nat → Nat → Nat → Outcome Unit
  | 0, _, _ => ([], none)
  | fuel + 1, p, e =>
    if p = e then .ret ()
    else .examine p sizeofChunkHeader <|
      let header := chunkHeader m p
      if header.headerSize < sizeofChunkHeader ∨ p + header.headerSize > e ∨ p + header.size > e then
        .throw (.outOfRange "Invalid chunk size")
      else if header.type = ChunkHeader.typeXml then
        (validate m fuel (p + header.headerSize) (p + header.size)).bind fun _ =>
          validate m fuel (p + header.size) e
      else validate m fuel (p + header.size) e

/-- The search for the string pool in the constructor of `AXMLFile`. -/
def findStringPool (m : Mem) : Nat → Nat → Nat → Outcome (Option Nat)
  | 0, _, _ => ([], none)
  | fuel + 1, p, e =>
    if p = e then .ret none
    else .examine p sizeofChunkHeader <|
      let h := chunkHeader m p
      if h.type = ChunkHeader.typeStringPool then
        if h.headerSize < sizeofStringPoolHeader then
          .throw (.runtimeError "StringPool header is not big enough")
        else .examine p sizeofStringPoolHeader (.ret (some p))
      else findStringPool m fuel (p + h.size) e

/-- `mainRange`, and where the string pool is. -/
structure AxmlFile where
  rangeBegin : Nat
  rangeEnd : Nat
  stringPool : Option Nat
  deriving DecidableEq

/-- The constructor of `AXMLFile`. -/
def axmlFile (m : Mem) (size fuel : Nat) : Outcome AxmlFile :=
  (validate m fuel 0 size).bind fun _ =>
    .examine 0 sizeofChunkHeader <|
      let header := chunkHeader m 0
      if header.type ≠ ChunkHeader.typeXml then .throw (.runtimeError "Document is not XML")
      else (findStringPool m fuel header.headerSize header.size).bind fun stringPool =>
        .ret ⟨header.headerSize, header.size, stringPool⟩

inductive EventType
  | startNamespace
  | endNamespace
  | startElement
  | endElement
  deriving DecidableEq

/-- The size of the structure that the accessors read at an event. -/
def EventType.nodeSize : EventType → Nat
  | .startNamespace | .endNamespace => sizeofNamespaceChunkData
  | .startElement => sizeofStartElementChunkData
  | .endElement => sizeofElementChunkData

structure AxmlParser where
  rangeIt : Nat
  firstEl : Bool
  evType : Option EventType
  deriving DecidableEq

namespace AxmlParser

def ofFile (file : AxmlFile) : AxmlParser := ⟨file.rangeBegin, true, none⟩

/-- Where `getNode` finds the data of the chunk. -/
def getNode (m : Mem) (s : AxmlParser) : Nat := s.rangeIt + (chunkHeader m s.rangeIt).headerSize

/-- The subtraction is one of `uint32_t`. -/
def checkNode (sizeofT : Nat) (header : ChunkHeader) : Except AxmlError Unit :=
  if header.headerSize < sizeofXMLNodeChunkHeader then
    .error (.runtimeError "Header is too small")
  else if (header.size + 2 ^ 32 - header.headerSize) % 2 ^ 32 < sizeofT then
    .error (.runtimeError "Not enough chunk data")
  else .ok ()

def incrementIterator (m : Mem) (rangeEnd : Nat) (s : AxmlParser) : AxmlParser :=
  if s.firstEl then { s with firstEl := false }
  else if s.rangeIt ≠ rangeEnd then
    { s with rangeIt := s.rangeIt + (chunkHeader m s.rangeIt).size }
  else s

/-- The checks of a start element, whose attributes have to be inside the chunk. The sum of the
16-bit fields is below `2 ^ 32`. -/
def checkStartElement (m : Mem) (p : Nat) (header : ChunkHeader) : Except AxmlError Unit :=
  match checkNode sizeofStartElementChunkData header with
  | .error x => .error x
  | .ok () =>
    let data := p + header.headerSize
    let attributeStart := read16 m (data + 8)
    let attributeSize := read16 m (data + 10)
    let attributeCount := read16 m (data + 12)
    if attributeSize < sizeofAttributeChunkData then
      .error (.runtimeError "Invalid attribute list item size")
    else if header.headerSize + attributeStart + attributeSize * attributeCount > header.size then
      .error (.runtimeError "Invalid attribute list size")
    else .ok ()

/-- What the body of the loop of `next` makes of the chunk at `p`: no event, an event, or an
exception. -/
def event (m : Mem) (p : Nat) : Option (Except AxmlError EventType) :=
  let header := chunkHeader m p
  if header.type = ChunkHeader.typeXmlStartNamespace ∨
      header.type = ChunkHeader.typeXmlEndNamespace then
    some ((checkNode sizeofNamespaceChunkData header).map fun _ =>
      if header.type = ChunkHeader.typeXmlStartNamespace then .startNamespace else .endNamespace)
  else if header.type = ChunkHeader.typeXmlStartElement then
    some ((checkStartElement m p header).map fun _ => .startElement)
  else if header.type = ChunkHeader.typeXmlEndElement then
    some ((checkNode sizeofElementChunkData header).map fun _ => .endElement)
  else none

def next (m : Mem) (rangeEnd : Nat) : Nat → AxmlParser → Option (Except AxmlError (Bool × AxmlParser))
  | 0, _ => none
  | fuel + 1, s =>
    let s := incrementIterator m rangeEnd s
    if s.rangeIt = rangeEnd then some (.ok (false, s))
    else
      match event m s.rangeIt with
      | some (.error x) => some (.error x)
      | some (.ok evType) => some (.ok (true, { s with evType := some evType }))
      | none => next m rangeEnd fuel s

end AxmlParser
end McpeLauncher.Axml
