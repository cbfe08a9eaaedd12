import Mathlib.Algebra.Group.Nat.Defs
import McpeLauncher.Lib.StoredBlocks
import McpeLauncher.Lib.StreamEncoder

/-!
# The compressor

`cll::EventCompressor`: one raw deflate stream for a string and back, in steps of 4096 bytes of
output. zlib is an encoder and a decoder that keep their contracts.
-/

namespace McpeLauncher.Telemetry

open StreamDecoder (Machine Inflate)
open StreamEncoder (Deflate)
open StoredBlocks

structure CompressError where
  what : String

namespace EventCompressor

variable {M : Machine UInt8 UInt8} (D : Deflate UInt8 UInt8) (I : Inflate M)

/-- The loop of `compress`: `data` is the input that is left. -/
def compressLoop (zs : D.σ) (data out : List UInt8) : Except CompressError (List UInt8) :=
  let c := D.deflate zs data 4096 .finish
  let out := out ++ c.output
  if c.ret = .streamError then .error ⟨"deflate error"⟩
  -- `avail_out` is what the output has left of the step
  else if 4096 - c.output.length = 0 then compressLoop c.state (data.drop c.consumed) out
  else .ok out
termination_by (D.left zs data).length
decreasing_by
  have hfull : 4096 - (D.deflate zs data 4096 .finish).output.length = 0 := by assumption
  exact D.left_deflate_lt (by omega)

/-- `avail_in` is a `uInt`. -/
def compress (data : List UInt8) : Except CompressError (List UInt8) :=
  compressLoop D D.init (data.take (data.length % 2 ^ 32)) []

def decompressLoop (zs : I.σ) (data out : List UInt8) : Except CompressError (List UInt8) :=
  let c := I.inflate zs data 4096 .finish
  let out := out ++ c.output
  if c.ret = .streamError then .error ⟨"inflate error"⟩
  else if 4096 - c.output.length = 0 then decompressLoop c.state (data.drop c.consumed) out
  else .ok out
termination_by I.pending zs data
decreasing_by
  have hfull : 4096 - (I.inflate zs data 4096 .finish).output.length = 0 := by assumption
  exact I.pending_inflate_lt (by omega)

def decompress (data : List UInt8) : Except CompressError (List UInt8) :=
  decompressLoop I I.init (data.take (data.length % 2 ^ 32)) []

variable {D} {I}

/-! ## The loops -/

theorem decompressLoop_eq (zs : I.σ) (data out : List UInt8)
    (h : (M.decode (I.totalIn zs ++ data)).status ≠ .corrupt) :
    decompressLoop I zs data out = .ok (out ++ I.left zs data) := by
  fun_induction decompressLoop I zs data out with
  | case1 zs data out c herror => exact (I.ret_ne_streamError _ _ _ _ herror).elim
  | case2 zs data out c out' _ hfull ih =>
    rw [ih (by rwa [I.totalIn_append_drop]), I.left_inflate zs data 4096 .finish, List.append_assoc]
  | case3 zs data out c out' _ hroom =>
    have hlt : c.output.length < 4096 := by omega
    rw [I.left_of_room hlt h]

theorem decompress_eq {data : List UInt8}
    (h : (M.decode (data.take (data.length % 2 ^ 32))).status ≠ .corrupt) :
    decompress I data = .ok (M.decode (data.take (data.length % 2 ^ 32))).out := by
  rw [decompress, decompressLoop_eq _ _ _ (by rwa [I.totalIn_init]), I.left_init, List.nil_append]

/-- Decompressing never throws, since the codes for an error in the data are not looked at. -/
theorem decompressLoop_returns (zs : I.σ) (data out : List UInt8) :
    ∃ r, decompressLoop I zs data out = .ok r := by
  fun_induction decompressLoop I zs data out with
  | case1 zs data out c herror => exact (I.ret_ne_streamError _ _ _ _ herror).elim
  | case2 zs data out c out' _ hfull ih => exact ih
  | case3 zs data out c out' _ hroom => exact ⟨_, rfl⟩

/-- **Malformed input is rejected** never. -/
theorem rejects_malformed_iff (I : Inflate M) (y : List UInt8) :
    ((¬∃ x, M.Member y x) → ∃ e, decompress I y = .error e) ↔ ∃ x, M.Member y x := by
  constructor
  · intro h
    by_contra hbad
    obtain ⟨e, he⟩ := h hbad
    obtain ⟨r, hr⟩ := decompressLoop_returns I.init (y.take (y.length % 2 ^ 32)) []
    rw [decompress, hr] at he
    cases he
  · exact fun h hbad => absurd h hbad

/-- The raw deflate stream of the text `A`: its letter is complete before the stream is. -/
def letterA : Machine UInt8 UInt8 := Machine.single [(0x73, []), (0x04, [65]), (0x00, [])]

/-- The stream without its last byte is decompressed to the letter. -/
theorem truncated_not_rejected : (¬∃ x, letterA.Member [0x73, 0x04] x) ∧
    ¬∃ e, decompress (Inflate.reference letterA) [0x73, 0x04] = .error e := by
  refine ⟨?_, ?_⟩
  · rintro ⟨x, hx⟩
    cases congrArg StreamDecoder.Decoded.status hx
  · rintro ⟨e, he⟩
    rw [decompress_eq (by decide)] at he
    cases he

/-! ## Round trips -/

/-- As many bytes as a `uInt` can count, without a pattern. -/
def noise : List UInt8 :=
  (List.range (2 ^ 32 - 1)).map fun n => UInt8.ofNat ((n * n * n + 2654435769 * n) / 4096)

end EventCompressor

end McpeLauncher.Telemetry
