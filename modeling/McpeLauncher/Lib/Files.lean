import Mathlib.Data.List.AList
import McpeLauncher.Lib.Lines

/-!
# Regular files of one directory

The part of the POSIX file interface that a program uses on the regular files of a directory when
no call fails: contents are byte strings, a descriptor is an offset into one of them.
-/

namespace PosixFiles
open ByteLines

/-- A directory: its regular files by name. -/
abbrev Dir (Name : Type) := AList fun _ : Name => Bytes

/-- `write(2)` of `data` at offset `off`; a gap behind the old end reads as zeros. -/
def writeAt (content : Bytes) (off : Nat) (data : Bytes) : Bytes :=
  content.take off ++ List.replicate (off - content.length) 0 ++ data ++
    content.drop (off + data.length)

/-- `ftruncate(2)`. -/
def truncate (content : Bytes) (n : Nat) : Bytes :=
  content.take n ++ List.replicate (n - content.length) 0

theorem writeAt_end (content data : Bytes) :
    writeAt content content.length data = content ++ data := by
  simp [writeAt]

theorem writeAt_inside {content data : Bytes} {off : Nat} (h : off + data.length ≤ content.length) :
    writeAt content off data =
      content.take off ++ data ++ content.drop (off + data.length) := by
  simp [writeAt, Nat.sub_eq_zero_of_le (by omega : off ≤ content.length)]

theorem length_writeAt (content : Bytes) (off : Nat) (data : Bytes) :
    (writeAt content off data).length = max content.length (off + data.length) := by
  simp only [writeAt, List.length_append, List.length_take, List.length_replicate, List.length_drop]
  omega

theorem writeAt_nil {content : Bytes} {off : Nat} (h : off ≤ content.length) :
    writeAt content off [] = content := by
  simp [writeAt, Nat.sub_eq_zero_of_le h]

/-- Two writes in a row are one. -/
theorem writeAt_writeAt {content : Bytes} {off n : Nat} (h : off ≤ content.length) {a : Bytes}
    (ha : a.length = n) (b : Bytes) :
    writeAt (writeAt content off a) (off + n) b = writeAt content off (a ++ b) := by
  subst ha
  have hfront : (content.take off ++ a).length = off + a.length := by
    rw [List.length_append, List.length_take_of_le h]
  have hsame : writeAt content off a = content.take off ++ a ++ content.drop (off + a.length) := by
    simp [writeAt, Nat.sub_eq_zero_of_le h]
  have hlen : off + a.length - (writeAt content off a).length = 0 := by
    rw [length_writeAt]
    omega
  rw [writeAt, hlen, List.replicate_zero, List.append_nil, hsame, List.take_left' hfront,
    List.drop_append, hfront, List.drop_of_length_le (by omega), List.nil_append, List.drop_drop]
  rw [writeAt, Nat.sub_eq_zero_of_le h, List.replicate_zero, List.append_nil, List.length_append]
  simp only [List.append_assoc]
  congr 4
  omega

theorem truncate_of_le {content : Bytes} {n : Nat} (h : n ≤ content.length) :
    truncate content n = content.take n := by
  simp [truncate, Nat.sub_eq_zero_of_le h]

/-! ## Moving the end of a file to its front -/

/-- The file had the content `old`, and `w` bytes from the offset `k` on were moved to the front:
they are there, and what is still to be moved has not been touched. -/
structure Moved (old new : Bytes) (k w : Nat) : Prop where
  le : k + w ≤ old.length
  length : new.length = old.length
  front : new.take w = (old.drop k).take w
  rest : new.drop (k + w) = old.drop (k + w)

section Moved

variable {old new buf : Bytes} {k w : Nat}

theorem Moved.start (h : k ≤ old.length) : Moved old old k 0 :=
  ⟨h, rfl, rfl, rfl⟩

/-- What is read behind the moved bytes is written after them. The place of the write is never
behind that of the read, so the bytes that are still to be moved stay as they are. -/
theorem Moved.write (h : Moved old new k w) (hbuf : buf <+: new.drop (k + w)) :
    Moved old (writeAt new w buf) k (w + buf.length) := by
  obtain ⟨t, ht⟩ := hbuf
  have hlen : buf.length + t.length + (k + w) = new.length := by
    have hsum := congrArg List.length ht
    rw [List.length_append, List.length_drop] at hsum
    have := h.le
    have := h.length
    omega
  have hfront : (new.take w ++ buf).length = w + buf.length := by
    rw [List.length_append, List.length_take_of_le (by omega)]
  rw [writeAt_inside (by omega)]
  refine ⟨?_, ?_, ?_, ?_⟩
  · have := h.length
    omega
  · rw [List.length_append, hfront, List.length_drop, ← h.length]
    omega
  · rw [List.take_left' hfront, List.take_add, List.drop_drop, ← h.rest, ← ht, List.take_left,
      h.front]
  · have hdrop := congrArg (List.drop buf.length) h.rest
    rw [List.drop_drop, List.drop_drop, Nat.add_assoc] at hdrop
    rw [← hdrop, List.drop_append, hfront, List.drop_of_length_le (by omega), List.nil_append,
      List.drop_drop]
    congr 1
    omega

/-- When all of them are moved, the file is cut behind them. -/
theorem Moved.truncate (h : Moved old new k (old.length - k)) :
    truncate new (old.length - k) = old.drop k := by
  have := h.length
  rw [truncate_of_le (by omega), h.front, List.take_of_length_le (Nat.le_of_eq List.length_drop)]

end Moved

namespace Dir
variable {Name : Type} [DecidableEq Name]

/-- What a descriptor open on `name` reads. -/
def content (d : Dir Name) (name : Name) : Bytes := (d.lookup name).getD []

/-- `open(2)` with `O_CREAT`: an absent file is created empty. -/
def openCreate (d : Dir Name) (name : Name) : Dir Name :=
  d.insert name (d.content name)

@[simp] theorem content_insert (d : Dir Name) (name : Name) (bs : Bytes) :
    content (d.insert name bs) name = bs := by
  simp [content]

theorem content_insert_ne (d : Dir Name) (bs : Bytes) {name name' : Name} (h : name' ≠ name) :
    content (d.insert name bs) name' = d.content name' := by
  simp [content, AList.lookup_insert_ne h]

theorem content_erase_ne (d : Dir Name) {name name' : Name} (h : name' ≠ name) :
    content (d.erase name) name' = d.content name' := by
  simp [content, AList.lookup_erase_ne h]

@[simp] theorem content_openCreate (d : Dir Name) (name name' : Name) :
    (d.openCreate name).content name' = d.content name' := by
  by_cases h : name' = name
  · subst h; simp [openCreate]
  · rw [openCreate, content_insert_ne _ _ h]

theorem content_of_notMem {d : Dir Name} {name : Name} (h : name ∉ d) : d.content name = [] := by
  simp [content, AList.lookup_eq_none.mpr h]

end Dir

end PosixFiles
