import Mathlib.Data.List.Basic

/-!
# Filling a buffer

A buffer of a fixed size that is filled piece by piece from its front. A piece that does not fit is
an error, and a buffer is full when its last place is written.
-/

/-- A buffer and the place of the next write. -/
structure FillBuffer (α : Type _) where
  bytes : List α
  pos : Nat
  le : pos ≤ bytes.length

namespace FillBuffer

variable {α : Type _} {b b' : FillBuffer α} {s : List α}

def start (bytes : List α) : FillBuffer α := ⟨bytes, 0, Nat.zero_le _⟩

def written (b : FillBuffer α) : List α := b.bytes.take b.pos

def Full (b : FillBuffer α) : Prop := b.pos = b.bytes.length

/-- The bytes with a piece copied over some of them. -/
def overwrite (bytes : List α) (pos : Nat) (s : List α) : List α :=
  bytes.take pos ++ s ++ bytes.drop (pos + s.length)

theorem length_overwrite {bytes : List α} {pos : Nat} (h : pos + s.length ≤ bytes.length) :
    (overwrite bytes pos s).length = bytes.length := by
  simp only [overwrite, List.length_append, List.length_take, List.length_drop]
  omega

def put (b : FillBuffer α) (s : List α) : Option (FillBuffer α) :=
  if h : b.pos + s.length ≤ b.bytes.length then
    some ⟨overwrite b.bytes b.pos s, b.pos + s.length, (length_overwrite h).symm ▸ h⟩
  else none

/-- A piece that fits is behind what was written. -/
theorem put_of_le (h : b.pos + s.length ≤ b.bytes.length) :
    ∃ b', b.put s = some b' ∧ b'.written = b.written ++ s ∧ b'.pos = b.pos + s.length ∧
      b'.bytes.length = b.bytes.length := by
  refine ⟨_, dif_pos h, ?_, rfl, length_overwrite h⟩
  have hlength : (b.bytes.take b.pos ++ s).length = b.pos + s.length := by
    rw [List.length_append, List.length_take, Nat.min_eq_left b.le]
  simp only [written, overwrite]
  rw [← hlength, List.take_left]

theorem put_nil (b : FillBuffer α) : b.put [] = some b := by
  have h : b.pos + ([] : List α).length ≤ b.bytes.length := b.le
  rw [put, dif_pos h]
  simp [overwrite]

theorem Full.written_eq (h : b.Full) : b.written = b.bytes := by
  rw [written, h, List.take_length]

def putAll (b : FillBuffer α) : List (List α) → Option (FillBuffer α)
  | [] => some b
  | s :: pieces => (b.put s).bind fun b => b.putAll pieces

/-- Pieces of the buffer's size fill it. -/
theorem putAll_of_length {pieces : List (List α)}
    (h : b.pos + pieces.flatten.length = b.bytes.length) :
    ∃ b', b.putAll pieces = some b' ∧ b'.Full ∧ b'.bytes = b.written ++ pieces.flatten := by
  induction pieces generalizing b with
  | nil =>
    have hfull : b.Full := h
    exact ⟨b, rfl, hfull, by rw [hfull.written_eq]; exact (List.append_nil _).symm⟩
  | cons s pieces ih =>
    rw [List.flatten_cons, List.length_append] at h
    obtain ⟨b', hput, hwritten, hpos, hlength⟩ := put_of_le (b := b) (s := s) (by omega)
    obtain ⟨b'', hputAll, hfull, hbytes⟩ := ih (b := b') (by omega)
    refine ⟨b'', by rw [putAll, hput]; exact hputAll, hfull, ?_⟩
    rw [hbytes, hwritten, List.flatten_cons, List.append_assoc]

end FillBuffer
