import Mathlib.Algebra.Group.Nat.Defs
import McpeLauncher.Lib.StoredBlocks
import McpeLauncher.Lib.StreamEncoder

/-!
# Gzipped request bodies

`http_request::set_gzip_body` compresses a string in steps of 4096 bytes of output. The string for
the output grows in each step, but each step writes to its start. zlib is an encoder that keeps its
contract.
-/

namespace McpeLauncher.PlayApi

open StreamDecoder (Machine)
open StreamEncoder (Deflate)

namespace GzipBody

variable (D : Deflate UInt8 UInt8)

/-- What a step appends to the output. -/
def room : List UInt8 := List.replicate 4096 0

/-- The loop of `set_gzip_body`: `data` is the input that is left, and a failed assertion is
`none`. -/
def deflateLoop (zs : D.σ) (data out : List UInt8) : Option (List UInt8) :=
  let out := out ++ room
  let c := D.deflate zs data 4096 .finish
  -- `next_out` is `out.data()` in every step
  let out := c.output ++ out.drop c.output.length
  if c.ret = .streamError then none
  else if 4096 - c.output.length ≠ 0 then some (out.take (out.length - (4096 - c.output.length)))
  else deflateLoop c.state (data.drop c.consumed) out
termination_by (D.left zs data).length
decreasing_by
  have hfull : ¬4096 - (D.deflate zs data 4096 .finish).output.length ≠ 0 := by assumption
  exact D.left_deflate_lt (by omega)

/-- The body that `set_gzip_body` sets. `avail_in` is a `uInt`. -/
def setGzipBody (str : List UInt8) : Option (List UInt8) :=
  deflateLoop D D.init (str.take (str.length % 2 ^ 32)) []

variable {D}

/-! ## What the loop leaves -/

/-- The stream `z` was written over the start of `out`, 4096 bytes at a time, which gave `r`. -/
structure Overwritten (z out r : List UInt8) : Prop where
  length : r.length = out.length + z.length
  same : z = [] → r = out
  /-- One step, and one more if there is no room to spare in it. -/
  whole : out = [] → z.length ≤ 4096 → r = z
  /-- The first byte is that of the last part. -/
  head : z ≠ [] → ∃ k, r.head? = z[4096 * k]? ∧ 4096 * k < z.length ∧ (4096 < z.length → 0 < k)
  /-- What is behind the first 4096 bytes stays as `resize` has made it. -/
  tail : (∀ b ∈ out.drop 4096, b = 0) → ∀ b ∈ r.drop 4096, b = 0

theorem length_room : room.length = 4096 := List.length_replicate

theorem drop_append_drop {o l : List UInt8} (h : o.length ≤ 4096) :
    (o ++ l.drop o.length).drop 4096 = l.drop 4096 := by
  rw [List.drop_append, List.drop_of_length_le h, List.nil_append, List.drop_drop]
  congr 1
  omega

theorem eq_zero_of_mem_drop {out : List UInt8} (h : ∀ b ∈ out.drop 4096, b = 0) :
    ∀ b ∈ (out ++ room).drop 4096, b = 0 := by
  intro b hb
  rw [List.drop_append, List.mem_append] at hb
  rcases hb with hb | hb
  · exact h b hb
  · exact List.eq_of_mem_replicate (List.mem_of_mem_drop hb)

theorem length_step {o : List UInt8} (h : o.length ≤ 4096) (out : List UInt8) :
    (o ++ (out ++ room).drop o.length).length = out.length + 4096 := by
  rw [List.length_append, List.length_drop, List.length_append, length_room]
  omega

/-- The last step has room to spare. -/
theorem Overwritten.last {z : List UInt8} (h : z.length < 4096) (out : List UInt8) :
    Overwritten z out ((z ++ (out ++ room).drop z.length).take (out.length + z.length)) := by
  have hlen := length_step (Nat.le_of_lt h) out
  constructor
  · rw [List.length_take, hlen]
    omega
  · rintro rfl
    rw [List.nil_append, List.length_nil, List.drop_zero, Nat.add_zero, List.take_left]
  · rintro rfl -
    rw [List.length_nil, Nat.zero_add, List.take_left]
  · intro hz
    refine ⟨0, ?_, List.length_pos_iff.mpr hz, fun hlong => by omega⟩
    obtain ⟨b, z, rfl⟩ := List.exists_cons_of_ne_nil hz
    rfl
  · intro hzero b hb
    rw [List.drop_take, drop_append_drop (Nat.le_of_lt h)] at hb
    exact eq_zero_of_mem_drop hzero b (List.mem_of_mem_take hb)

/-- A step that has used up its room. -/
theorem Overwritten.step {o z out r : List UInt8} (ho : o.length = 4096)
    (h : Overwritten z (o ++ (out ++ room).drop o.length) r) : Overwritten (o ++ z) out r := by
  have hlen := length_step (Nat.le_of_eq ho) out
  constructor
  · rw [h.length, hlen, List.length_append]
    omega
  · intro hnil
    have := congrArg List.length hnil
    rw [List.length_append, List.length_nil] at this
    omega
  · rintro rfl hle
    rw [List.length_append] at hle
    obtain rfl : z = [] := List.eq_nil_of_length_eq_zero (by omega)
    rw [h.same rfl, List.nil_append, ho, List.drop_of_length_le (Nat.le_of_eq length_room)]
  · intro _
    by_cases hz : z = []
    · subst hz
      refine ⟨0, ?_, ?_, fun hlong => ?_⟩
      · obtain ⟨b, o, rfl⟩ := List.exists_cons_of_length_pos (show 0 < o.length by omega)
        rw [h.same rfl]
        rfl
      · rw [List.append_nil]
        omega
      · rw [List.append_nil] at hlong
        omega
    · obtain ⟨k, hk, hlt, -⟩ := h.head hz
      refine ⟨k + 1, ?_, ?_, fun _ => Nat.succ_pos k⟩
      · rw [hk, List.getElem?_append_right (by omega), ho, Nat.mul_succ, Nat.add_sub_cancel]
      · rw [List.length_append]
        omega
  · intro hzero
    refine h.tail fun b hb => ?_
    rw [drop_append_drop (Nat.le_of_eq ho)] at hb
    exact eq_zero_of_mem_drop hzero b hb

theorem deflateLoop_spec (zs : D.σ) (data out : List UInt8) :
    ∃ r, deflateLoop D zs data out = some r ∧ Overwritten (D.left zs data) out r := by
  fun_induction deflateLoop D zs data out with
  | case1 zs data out c herror => exact (D.ret_ne_streamError _ _ _ _ herror).elim
  | case2 zs data out out' c out'' _ hroom =>
    have hlt : c.output.length < 4096 := by omega
    have hlen : out''.length = out.length + 4096 := length_step (Nat.le_of_lt hlt) out
    refine ⟨_, rfl, ?_⟩
    rw [D.left_of_room hlt, hlen, Nat.add_sub_assoc (by omega), Nat.sub_sub_self (by omega)]
    exact .last hlt out
  | case3 zs data out out' c out'' _ hfull ih =>
    obtain ⟨r, hr, hover⟩ := ih
    have hle : c.output.length ≤ 4096 := D.output_le zs data 4096 .finish
    have hlen : c.output.length = 4096 := by omega
    refine ⟨r, hr, ?_⟩
    rw [D.left_deflate zs data 4096]
    exact hover.step hlen

/-- A stream that does not fit into one step is not what is left, if it starts with a byte that is
not zero. -/
theorem Overwritten.ne {z r : List UInt8} (h : Overwritten z [] r) (hlong : 4096 < z.length)
    (hhead : z.head? ≠ some 0) : r ≠ z := by
  rintro rfl
  obtain ⟨k, hk, hlt, hpos⟩ := h.head (List.length_pos_iff.mp (by omega))
  have hk' := hpos hlong
  have hmem : r[4096 * k] ∈ r.drop 4096 := by
    have hindex : 4096 + (4096 * k - 4096) = 4096 * k := by omega
    apply List.mem_of_getElem? (i := 4096 * k - 4096)
    rw [List.getElem?_drop, hindex, List.getElem?_eq_getElem hlt]
  rw [hk, List.getElem?_eq_getElem hlt, h.tail (fun b hb => nomatch hb) _ hmem] at hhead
  exact hhead rfl

/-! ## The body -/

/-- What is documented of the format: the first byte, the size of the data modulo 2^32 in the last
four bytes, and the largest ratio of the compression. -/
structure GzipFormat (M : Machine UInt8 UInt8) : Prop where
  id : ∀ z x, M.Member z x → z.head? = some 0x1f
  isize : ∀ z x, M.Member z x → z.drop (z.length - 4) =
    [UInt8.ofNat x.length, UInt8.ofNat (x.length / 256), UInt8.ofNat (x.length / 65536),
      UInt8.ofNat (x.length / 16777216)]
  ratio : ∀ z x, M.Member z x → x.length ≤ 1032 * z.length

/-- A stream with four zero bytes at its end has data of a multiple of 2^32 bytes. -/
theorem GzipFormat.length_mod (h : GzipFormat M) (hz : M.Member z x)
    (hzero : ∀ b ∈ z.drop (z.length - 4), b = 0) : x.length % 2 ^ 32 = 0 := by
  rw [h.isize z x hz] at hzero
  simp only [List.forall_mem_cons] at hzero
  obtain ⟨h₀, h₁, h₂, h₃, -⟩ := hzero
  have hbyte : ∀ n : Nat, UInt8.ofNat n = 0 → n % 256 = 0 := fun n hn => by
    simpa using congrArg UInt8.toNat hn
  have := hbyte _ h₀
  have := hbyte _ h₁
  have := hbyte _ h₂
  have := hbyte _ h₃
  omega

/-- **The body is the gzip stream of the string** exactly if the string is shorter than 2^32 bytes
and the stream fits into one step. -/
theorem body_eq_stream_iff (hfmt : GzipFormat M) {str : List UInt8}
    (hstr : M.Member (D.final D.init str) str) (hempty : (D.final D.init []).length ≤ 4096) :
    (∃ body, setGzipBody D str = some body ∧ body = D.final D.init str ∧ M.Member body str) ↔
      str.length < 2 ^ 32 ∧ (D.final D.init str).length ≤ 4096 := by
  obtain ⟨r, hr, hover⟩ := deflateLoop_spec D.init (str.take (str.length % 2 ^ 32)) []
  rw [D.left_init] at hover
  have hbody : (∃ body, setGzipBody D str = some body ∧ body = D.final D.init str ∧
      M.Member body str) ↔ r = D.final D.init str := by
    constructor
    · rintro ⟨body, hset, hbody, -⟩
      rw [setGzipBody, hr] at hset
      exact (Option.some.inj hset).trans hbody
    · exact fun h => ⟨r, hr, h, h ▸ hstr⟩
  rw [hbody]
  have hid := hfmt.id _ _ hstr
  have hratio := hfmt.ratio _ _ hstr
  by_cases hlen : str.length < 2 ^ 32
  · rw [Nat.mod_eq_of_lt hlen, List.take_length] at hover
    rw [and_iff_right hlen]
    constructor
    · intro h
      by_contra hlong
      exact hover.ne (by omega) (by rw [hid]; decide) h
    · exact hover.whole rfl
  · refine iff_of_false (fun h => ?_) fun h => hlen h.1
    have hsize := hover.length
    rw [h] at hsize
    -- so much data has a stream whose last bytes are behind the first step
    have hmod := hfmt.length_mod hstr fun b hb => by
      refine hover.tail (fun b hb => nomatch hb) b ?_
      rw [← Nat.add_sub_cancel' (show 4096 ≤ (D.final D.init str).length - 4 by omega),
        ← List.drop_drop] at hb
      exact h ▸ List.mem_of_mem_drop hb
    rw [hmod, List.take_zero, List.length_nil] at hsize
    omega

/-- A member with its header and its trailer. -/
def member (body : List (UInt8 × List UInt8)) (trailer : List UInt8) : List (UInt8 × List UInt8) :=
  [0x1f, 0x8b, 8, 0, 0, 0, 0, 0, 2, 3].map (·, []) ++ body ++ trailer.map (·, [])

theorem flatten_member (body : List (UInt8 × List UInt8)) (trailer : List UInt8) :
    ((member body trailer).map (·.2)).flatten = (body.map (·.2)).flatten := by
  simp [member]

def letterA : List (UInt8 × List UInt8) :=
  member [(0x73, []), (0x04, [65]), (0x00, [])] [0x8b, 0x9e, 0xd9, 0xd3, 1, 0, 0, 0]

def emptyString : List (UInt8 × List UInt8) := member [(3, []), (0, [])] [0, 0, 0, 0, 0, 0, 0, 0]

/-- An encoder that knows two strings. -/
def encoder : Deflate UInt8 UInt8 :=
  Deflate.reference fun x => (if x = [65] then letterA else emptyString).map (·.1)

theorem letterA_format : GzipFormat (Machine.single letterA) := by
  have h : ∀ z x, (Machine.single letterA).Member z x → z = letterA.map (·.1) ∧ x = [65] :=
    fun z x hm => (Machine.single_member_iff (by decide)).mp hm
  constructor
  · intro z x hm
    rw [(h z x hm).1]
    rfl
  · intro z x hm
    rw [(h z x hm).1, (h z x hm).2]
    rfl
  · intro z x hm
    rw [(h z x hm).1, (h z x hm).2]
    decide

theorem body_eq_stream_iff_letterA :
    (∃ body, setGzipBody encoder [65] = some body ∧ body = encoder.final encoder.init [65] ∧
      (Machine.single letterA).Member body [65]) ↔
      [65].length < 2 ^ 32 ∧ (encoder.final encoder.init [65]).length ≤ 4096 :=
  body_eq_stream_iff letterA_format rfl (by decide)

/-- Bytes that cannot be compressed. -/
def noise : List UInt8 :=
  (List.range 5000).map fun n => UInt8.ofNat ((n * n * n + 2654435769 * n) / 4096)

/-- They are stored in one block. -/
def storedNoise : List (UInt8 × List UInt8) :=
  member (StoredBlocks.stored (StoredBlocks.blocks noise)) [0x8f, 0x10, 0x25, 0xbf, 0x88, 0x13, 0, 0]

theorem storedNoise_member :
    (Machine.single storedNoise).Member (storedNoise.map (·.1)) noise := by
  have h : (Machine.single storedNoise).Member _ _ := Machine.single_member (List.cons_ne_nil _ _)
  rwa [storedNoise, flatten_member, StoredBlocks.flatten_stored, StoredBlocks.flatten_blocks] at h

theorem length_storedNoise : 5000 ≤ storedNoise.length := by
  have hlen : noise.length = 5000 := by rw [noise, List.length_map, List.length_range]
  rw [storedNoise, member, List.length_append, List.length_append, StoredBlocks.length_stored,
    StoredBlocks.flatten_blocks, hlen]
  omega

/-- Their stream takes a second step, which overwrites its header. -/
theorem noise_body_ne_stream :
    (Machine.single storedNoise).Member (storedNoise.map (·.1)) noise ∧
      ¬∃ body, setGzipBody (Deflate.reference fun _ => storedNoise.map (·.1)) noise = some body ∧
        body = storedNoise.map (·.1) ∧ (Machine.single storedNoise).Member body noise := by
  refine ⟨storedNoise_member, ?_⟩
  rintro ⟨body, hset, hbody, -⟩
  obtain ⟨r, hr, hover⟩ := deflateLoop_spec
    (D := Deflate.reference fun _ : List UInt8 => storedNoise.map (·.1)) none
    (noise.take (noise.length % 2 ^ 32)) []
  have hr' : some r = some body := hr.symm.trans hset
  have hlong : 4096 < (storedNoise.map (·.1)).length := by
    have := length_storedNoise
    rw [List.length_map]
    omega
  exact hover.ne hlong (by decide) ((Option.some.inj hr').trans hbody)

end GzipBody

end McpeLauncher.PlayApi
