import McpeLauncher.Lib.StreamDecoder

/-!
# Encoders of streams

`Deflate` is an encoder as a library offers it: it is called with the rest of the input and with
room for some output, it keeps what does not fit, and its caller calls again until there is room to
spare. -/

namespace StreamEncoder

open StreamDecoder (Called Flush Ret)

variable {α β : Type}

/-- An encoder with what its documentation promises to a caller who keeps its state intact, gives it
the memory it asks for, and finishes the stream. `final s data` is the whole stream if `data` is the
rest of the input, and `totalOut` what has been put out of it since `init`. -/
structure Deflate (α β : Type) where
  σ : Type
  init : σ
  deflate (s : σ) (data : List α) (room : Nat) (flush : Flush) : Called σ β
  final : σ → List α → List β
  totalOut : σ → List β
  totalOut_init : totalOut init = []
  output_le : ∀ s data room flush, (deflate s data room flush).output.length ≤ room
  totalOut_deflate : ∀ s data room flush,
    totalOut (deflate s data room flush).state = totalOut s ++ (deflate s data room flush).output
  totalOut_prefix : ∀ s data, totalOut s <+: final s data
  final_deflate : ∀ s data room,
    final (deflate s data room .finish).state
        (data.drop (deflate s data room .finish).consumed) = final s data
  /-- It stops before the room is used up only when it has put out the whole stream. -/
  drained : ∀ s data room, (deflate s data room .finish).output.length < room →
    totalOut (deflate s data room .finish).state = final s data
  ret_ne_streamError : ∀ s data room flush, (deflate s data room flush).ret ≠ .streamError

namespace Deflate

variable (D : Deflate α β)

/-- What is still to be put out. -/
def left (s : D.σ) (data : List α) : List β := (D.final s data).drop (D.totalOut s).length

theorem left_init (data : List α) : D.left D.init data = D.final D.init data := by
  rw [left, D.totalOut_init, List.length_nil, List.drop_zero]

theorem totalOut_append_left (s : D.σ) (data : List α) :
    D.totalOut s ++ D.left s data = D.final s data := by
  obtain ⟨rest, hrest⟩ := D.totalOut_prefix s data
  rw [left, ← hrest, List.drop_left]

/-- A call puts out the front of it. -/
theorem left_deflate (s : D.σ) (data : List α) (room : Nat) :
    D.left s data = (D.deflate s data room .finish).output ++
      D.left (D.deflate s data room .finish).state
        (data.drop (D.deflate s data room .finish).consumed) := by
  have h := D.totalOut_append_left (D.deflate s data room .finish).state
    (data.drop (D.deflate s data room .finish).consumed)
  rw [D.final_deflate, ← D.totalOut_append_left s data, D.totalOut_deflate, List.append_assoc] at h
  exact (List.append_cancel_left h).symm

/-- A call with room to spare puts out all of it. -/
theorem left_of_room {s : D.σ} {data : List α} {room : Nat}
    (h : (D.deflate s data room .finish).output.length < room) :
    D.left s data = (D.deflate s data room .finish).output := by
  have hout := D.drained s data room h
  rw [D.totalOut_deflate, ← D.totalOut_append_left s data] at hout
  exact (List.append_cancel_left hout).symm

/-- So a call that puts something out leaves less. -/
theorem left_deflate_lt {s : D.σ} {data : List α} {room : Nat}
    (h : 0 < (D.deflate s data room .finish).output.length) :
    (D.left (D.deflate s data room .finish).state
      (data.drop (D.deflate s data room .finish).consumed)).length < (D.left s data).length := by
  rw [D.left_deflate s data room, List.length_append]
  omega

theorem take_eq_self_of_length_lt {l : List β} {n : Nat} (h : (l.take n).length < n) :
    l.take n = l := by
  rw [List.length_take] at h
  exact List.take_of_length_le (by omega)

/-- The encoder that makes the whole stream in its first call: its state is what it has put out of
the stream and what it has not. -/
def reference (encode : List α → List β) : Deflate α β where
  σ := Option (List β × List β)
  init := none
  deflate s data room _ :=
    let (given, left) := s.getD ([], encode data)
    { state := some (given ++ left.take room, left.drop room)
      consumed := data.length
      output := left.take room
      ret := if left.length < room then .streamEnd else .ok }
  final s data := let (given, left) := s.getD ([], encode data); given ++ left
  totalOut s := (s.getD ([], [])).1
  totalOut_init := rfl
  output_le s data room flush := List.length_take_le _ _
  totalOut_deflate s data room flush := by cases s <;> rfl
  totalOut_prefix s data := by
    cases s with
    | none => exact List.nil_prefix
    | some p => exact List.prefix_append _ _
  final_deflate s data room := by
    cases s with
    | none => exact List.take_append_drop room _
    | some p => exact (List.append_assoc ..).trans (congrArg _ (List.take_append_drop room _))
  drained s data room h := by
    cases s with
    | none => exact congrArg ([] ++ ·) (take_eq_self_of_length_lt h)
    | some p => exact congrArg (p.1 ++ ·) (take_eq_self_of_length_lt h)
  ret_ne_streamError s data room flush := by
    dsimp only
    split
    · exact Ret.noConfusion
    · exact Ret.noConfusion

end Deflate

end StreamEncoder
