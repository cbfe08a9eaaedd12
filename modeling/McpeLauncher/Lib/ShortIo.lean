import Mathlib.Algebra.GroupWithZero.Nat
import McpeLauncher.Lib.Files

/-!
# Short reads and writes

`read` and `write` may transfer less than they are asked for, or fail. The loops around them are
given a schedule that says what each call is able to do; without errors they transfer everything,
whatever the schedule is. -/

namespace PosixFiles
open ByteLines

/-- What the calls of `read` or `write` are able to do, one after the other: so many bytes at most,
or a negative number for an error. -/
abbrev Transfers := Nat → Int

namespace Transfers

/-- The schedule after a call. -/
def tail (t : Transfers) : Transfers := fun i => t (i + 1)

/-- Every call transfers something. -/
def Positive (t : Transfers) : Prop := ∀ i, 0 < t i

/-- Some transfers, and then errors. -/
def failing : List Nat → Transfers
  | [] => fun _ => -1
  | n :: ns => fun
    | 0 => n
    | i + 1 => failing ns i

theorem Positive.tail {t : Transfers} (h : t.Positive) : t.tail.Positive := fun i => h (i + 1)

end Transfers

/-- `read(2)` of up to `count` bytes where `rest` is left of the file; `none` is an error. -/
def read (limit : Int) (rest : Bytes) (count : Nat) : Option Bytes :=
  if limit < 0 then none else some (rest.take (min limit.toNat count))

/-- `while ((m = read(fd, &data[n], room)) > 0) { n += m; room -= m; }`: what is read. Each round
but the last one takes some of the room, so one more round than that is enough. -/
def readLoop : (fuel : Nat) → Transfers → (rest : Bytes) → (room : Nat) → Bytes
  | 0, _, _, _ => []
  | fuel + 1, reads, rest, room =>
    match read (reads 0) rest room with
    | none => []
    | some buf =>
      if buf = [] then []
      else buf ++ readLoop fuel reads.tail (rest.drop buf.length) (room - buf.length)

/-- The end of a loop of writes: the schedule that is left, the file, the offset of the descriptor
and whether a call has failed. -/
structure Written where
  rest : Transfers
  content : Bytes
  off : Nat
  failed : Bool

/-- `while (o < size) { m = write(fd, &data[o], size - o); if (m < 0) break; o += m; }`, for at most
so many rounds. A call that writes nothing does not change the file. -/
def writeLoop : (fuel : Nat) → Transfers → (content : Bytes) → (off : Nat) → (data : Bytes) →
    Option Written
  | 0, _, _, _, _ => none
  | fuel + 1, writes, content, off, data =>
    if data = [] then some ⟨writes, content, off, false⟩
    else if writes 0 < 0 then some ⟨writes.tail, content, off, true⟩
    else
      let m := min (writes 0).toNat data.length
      writeLoop fuel writes.tail (if m = 0 then content else writeAt content off (data.take m))
        (off + m) (data.drop m)

/-! ## A loop of reads -/

/-- A read that may transfer something takes a front part of what is left, an empty one only if
there is nothing left or no room. -/
theorem read_of_pos {limit : Int} (h : 0 < limit) (rest : Bytes) (count : Nat) :
    ∃ buf, read limit rest count = some buf ∧ buf <+: rest ∧ buf.length ≤ count ∧
      (buf = [] → rest = [] ∨ count = 0) := by
  refine ⟨rest.take (min limit.toNat count), if_neg (by omega), List.take_prefix _ _, ?_, ?_⟩
  · exact Nat.le_trans (List.length_take_le _ _) (Nat.min_le_right _ _)
  · intro hnil
    rcases List.take_eq_nil_iff.mp hnil with hzero | hrest
    · exact .inr (by omega)
    · exact .inl hrest

/-- **A loop of reads** reads what there is room for. -/
theorem readLoop_of_positive {reads : Transfers} (h : reads.Positive) (rest : Bytes) {room : Nat}
    (hfuel : room < fuel) : readLoop fuel reads rest room = rest.take room := by
  induction fuel generalizing reads rest room with
  | zero => exact absurd hfuel (Nat.not_lt_zero room)
  | succ fuel ih =>
    obtain ⟨buf, hread, ⟨t, rfl⟩, hlen, hnil⟩ := read_of_pos (h 0) rest room
    rw [readLoop, hread]
    dsimp only
    split
    · next hbuf =>
      rcases hnil hbuf with hrest | rfl
      · rw [hrest, List.take_nil]
      · exact List.take_zero.symm
    · next hbuf =>
      have hpos := List.length_pos_iff.mpr hbuf
      rw [ih h.tail _ (by omega), List.drop_left, List.take_append, List.take_of_length_le hlen]

/-! ## A loop of writes -/

/-- Whatever the calls are able to do, **a loop of writes** has written a front part of the data
where the descriptor was, all of it unless a call has failed. -/
theorem writeLoop_spec {writes : Transfers} {content : Bytes} {off : Nat}
    (hoff : off ≤ content.length) {data : Bytes} {v : Written}
    (h : writeLoop fuel writes content off data = some v) :
    ∃ m ≤ data.length, v.content = writeAt content off (data.take m) ∧ v.off = off + m ∧
      (v.failed = false → m = data.length) := by
  induction fuel generalizing writes content off data with
  | zero => cases h
  | succ fuel ih =>
    rw [writeLoop] at h
    split at h
    · next hdata =>
      cases h
      subst hdata
      exact ⟨0, le_rfl, (writeAt_nil hoff).symm, rfl, fun _ => rfl⟩
    · split at h
      · cases h
        refine ⟨0, Nat.zero_le _, ?_, rfl, fun hf => nomatch hf⟩
        rw [List.take_zero, writeAt_nil hoff]
      · dsimp only at h
        generalize hm : min (writes 0).toNat data.length = m at h
        have hle : m ≤ data.length := by omega
        have htake : (data.take m).length = m := List.length_take_of_le hle
        have hnext : (if m = 0 then content else writeAt content off (data.take m)) =
            writeAt content off (data.take m) := by
          split
          · next hzero => rw [hzero, List.take_zero, writeAt_nil hoff]
          · rfl
        have hoff' : off + m ≤ (writeAt content off (data.take m)).length := by
          rw [length_writeAt, htake]
          exact Nat.le_max_right _ _
        rw [hnext] at h
        obtain ⟨m', hm', hcontent, hoffset, hall⟩ := ih hoff' h
        rw [List.length_drop] at hm' hall
        refine ⟨m + m', by omega, ?_, by omega, fun hf => ?_⟩
        · rw [hcontent, writeAt_writeAt hoff htake, List.take_add]
        · have := hall hf
          omega

/-- Without errors it ends, and none of its calls has failed. -/
theorem writeLoop_of_positive {writes : Transfers} (h : writes.Positive) (content : Bytes)
    (off : Nat) {data : Bytes} (hfuel : data.length < fuel) :
    ∃ v, writeLoop fuel writes content off data = some v ∧ v.failed = false ∧ v.rest.Positive := by
  induction fuel generalizing writes content off data with
  | zero => exact absurd hfuel (Nat.not_lt_zero _)
  | succ fuel ih =>
    have h0 := h 0
    rw [writeLoop]
    split
    · exact ⟨_, rfl, rfl, h⟩
    · next hdata =>
      have hpos := List.length_pos_iff.mpr hdata
      rw [if_neg (by omega)]
      exact ih h.tail _ _ (by rw [List.length_drop]; omega)

/-- If an error is ahead, it ends there, with what the calls before have written. -/
theorem writeLoop_failing {ns : List Nat} (content : Bytes) (off : Nat) {data : Bytes}
    (hsum : ns.sum < data.length) (hfuel : ns.length < fuel) :
    ∃ v, writeLoop fuel (Transfers.failing ns) content off data = some v ∧ v.failed = true ∧
      v.off = off + ns.sum := by
  induction ns generalizing fuel content off data with
  | nil =>
    obtain ⟨fuel, rfl⟩ : ∃ k, fuel = k + 1 := ⟨fuel - 1, by omega⟩
    have hdata : data ≠ [] := List.length_pos_iff.mp hsum
    rw [writeLoop, if_neg hdata, if_pos (show Transfers.failing [] 0 < 0 by decide)]
    exact ⟨_, rfl, rfl, rfl⟩
  | cons n ns ih =>
    obtain ⟨fuel, rfl⟩ : ∃ k, fuel = k + 1 := ⟨fuel - 1, by omega⟩
    rw [List.sum_cons] at hsum
    have hdata : data ≠ [] := List.length_pos_iff.mp (by omega)
    have hfirst : Transfers.failing (n :: ns) 0 = n := rfl
    have hm : min (n : Int).toNat data.length = n := by omega
    rw [writeLoop, if_neg hdata, hfirst, if_neg (by omega)]
    dsimp only
    rw [hm]
    have hrest : ns.sum < (data.drop n).length := by
      rw [List.length_drop]
      omega
    obtain ⟨v, hloop, hfailed, hoff⟩ :=
      ih (if n = 0 then content else writeAt content off (data.take n)) (off + n) hrest
        (Nat.lt_of_succ_lt_succ hfuel)
    exact ⟨v, hloop, hfailed, by rw [hoff, List.sum_cons, Nat.add_assoc]⟩

/-- A call that can write everything does, wherever the descriptor is. -/
theorem writeLoop_once (content : Bytes) (off : Nat) {data : Bytes} (h : data ≠ []) :
    ∃ rest, writeLoop 2 (fun _ => data.length) content off data =
      some ⟨rest, writeAt content off data, off + data.length, false⟩ := by
  have hpos := List.length_pos_iff.mpr h
  have hm : min (data.length : Int).toNat data.length = data.length := by omega
  refine ⟨fun _ => data.length, ?_⟩
  rw [writeLoop, if_neg h, if_neg (by omega)]
  dsimp only
  rw [hm, if_neg (by omega), List.take_length, List.drop_length, writeLoop, if_pos rfl]
  rfl

end PosixFiles
