import Mathlib.Data.List.Basic

/-!
# Random UUIDs

`UUID::makeRandomUUID`: sixteen random bytes are marked with the version and the variant and printed.
The byte of the variant is made of the byte of the version.
-/

namespace McpeLauncher.Uuid

/-! ## The printer -/

/-- `%02x`, or a character that is copied. -/
inductive Piece
  | hex
  | literal (c : Char)
  deriving DecidableEq

def pieces : List Char → List Piece
  | '%' :: '0' :: '2' :: 'x' :: format => .hex :: pieces format
  | c :: format => .literal c :: pieces format
  | [] => []

def hexDigit (n : Nat) : Char := "0123456789abcdef".toList.getD n '0'

def hex2 (a : UInt8) : List Char := [hexDigit (a.toNat / 16), hexDigit (a.toNat % 16)]

/-- What is printed. -/
def render : List Piece → List UInt8 → List Char
  | .hex :: format, a :: args => hex2 a ++ render format args
  | .hex :: _, [] => []
  | .literal c :: format, args => c :: render format args
  | [], _ => []

/-- `snprintf` into the `n` first characters of a buffer. -/
def snprintf (buf : List Char) (n : Nat) (format : String) (args : List UInt8) : List Char :=
  let out := (render (pieces format.toList) args).take (n - 1) ++ ['\x00']
  out ++ buf.drop out.length

/-! ## The UUID -/

/-- `rawBytes` -/
abbrev RawBytes := Vector UInt8 16

def mark (rawBytes : RawBytes) : RawBytes :=
  let rawBytes := rawBytes.set 6 (rawBytes[6] &&& 0x0f ||| 0x40)
  rawBytes.set 8 (rawBytes[6] &&& 0x3f ||| 0x80)

def format (hyphens : Bool) : String :=
  if hyphens then
    "%02x%02x%02x%02x-%02x%02x-%02x%02x-%02x%02x-%02x%02x%02x%02x%02x%02x"
  else "%02x%02x%02x%02x%02x%02x%02x%02x%02x%02x%02x%02x%02x%02x%02x%02x"

/-- The text, from the bytes that the engine has generated. -/
def makeRandomUUID (hyphens : Bool) (rawBytes : RawBytes) : List Char :=
  let n := if hyphens then 37 else 33
  let ret := List.replicate n '\x00'
  let ret := snprintf ret n (format hyphens) (mark rawBytes).toList
  ret.take (if hyphens then 36 else 32)

/-! ## What is printed is what was marked -/

def hexCount (format : List Piece) : Nat := format.count .hex

theorem hexDigit_inj : ∀ m < 16, ∀ n < 16, hexDigit m = hexDigit n → m = n := by
  decide

theorem hex2_inj {a b : UInt8} (h : hex2 a = hex2 b) : a = b := by
  obtain ⟨hhigh, hlow⟩ := List.cons.inj h
  have ha := a.toNat_lt
  have hb := b.toNat_lt
  have hhigh := hexDigit_inj _ (by omega) _ (by omega) hhigh
  have hlow := hexDigit_inj _ (by omega) _ (by omega) (List.cons.inj hlow).1
  exact UInt8.toNat_inj.mp (by omega)

theorem length_render {format : List Piece} {args : List UInt8} (h : args.length = hexCount format) :
    (render format args).length = format.length + hexCount format := by
  induction format generalizing args with
  | nil => rfl
  | cons piece format ih =>
    cases piece with
    | hex =>
      rw [hexCount, List.count_cons_self] at h ⊢
      obtain ⟨a, args, rfl⟩ := List.exists_cons_of_length_eq_add_one h
      rw [render, List.length_append, ih (Nat.succ.inj h), List.length_cons, hexCount]
      simp only [hex2, List.length_cons, List.length_nil]
      omega
    | literal c =>
      have hcount : hexCount (.literal c :: format) = hexCount format := by simp [hexCount]
      rw [hcount] at h ⊢
      rw [render, List.length_cons, ih h, List.length_cons]
      omega

/-- Different bytes are printed differently. -/
theorem render_inj {format : List Piece} {args args' : List UInt8}
    (h : args.length = hexCount format) (h' : args'.length = hexCount format)
    (heq : render format args = render format args') : args = args' := by
  induction format generalizing args args' with
  | nil => rw [List.length_eq_zero_iff.mp h, List.length_eq_zero_iff.mp h']
  | cons piece format ih =>
    cases piece with
    | hex =>
      rw [hexCount, List.count_cons_self] at h h'
      obtain ⟨a, args, rfl⟩ := List.exists_cons_of_length_eq_add_one h
      obtain ⟨a', args', rfl⟩ := List.exists_cons_of_length_eq_add_one h'
      obtain ⟨hhex, hrest⟩ := List.append_inj heq rfl
      rw [hex2_inj hhex, ih (Nat.succ.inj h) (Nat.succ.inj h') hrest]
    | literal c =>
      have hcount : hexCount (.literal c :: format) = hexCount format := by simp [hexCount]
      rw [hcount] at h h'
      exact ih h h' (List.cons.inj heq).2

theorem hexCount_format (hyphens : Bool) : hexCount (pieces (format hyphens).toList) = 16 := by
  cases hyphens <;> decide

/-- What is printed fits into the buffer, with the zero behind it. -/
theorem take_snprintf {buf : List Char} {format : String} {args : List UInt8} {n : Nat}
    (h : (render (pieces format.toList) args).length = n) :
    (snprintf buf (n + 1) format args).take n = render (pieces format.toList) args := by
  rw [snprintf, Nat.add_sub_cancel, List.take_of_length_le (Nat.le_of_eq h)]
  simp only [List.append_assoc]
  rw [List.take_left' h]

theorem makeRandomUUID_eq (hyphens : Bool) (rawBytes : RawBytes) :
    makeRandomUUID hyphens rawBytes =
      render (pieces (format hyphens).toList) (mark rawBytes).toList := by
  have hargs : (mark rawBytes).toList.length = hexCount (pieces (format hyphens).toList) := by
    rw [hexCount_format, Vector.length_toList]
  have hlength := length_render hargs
  rw [hexCount_format] at hlength
  cases hyphens
  · exact take_snprintf (hlength.trans (by decide))
  · exact take_snprintf (hlength.trans (by decide))

/-! ## Version and variant -/

def digits (text : List Char) : List Char := text.filter (· ≠ '-')

/-- A text of version 4 with the variant `10`. -/
structure Marked (text : List Char) : Prop where
  version : (digits text)[12]? = some '4'
  variant : ∃ c ∈ ['8', '9', 'a', 'b'], (digits text)[16]? = some c

theorem hexDigit_ne_hyphen : ∀ n < 16, hexDigit n ≠ '-' := by
  decide

theorem digits_hex2 (a : UInt8) : digits (hex2 a) = hex2 a := by
  have ha := a.toNat_lt
  have hhigh := hexDigit_ne_hyphen (a.toNat / 16) (by omega)
  have hlow := hexDigit_ne_hyphen (a.toNat % 16) (by omega)
  simp [digits, hex2, hhigh, hlow]

theorem digits_render {format : List Piece} {args : List UInt8}
    (hliteral : ∀ c, .literal c ∈ format → c = '-') (h : args.length = hexCount format) :
    digits (render format args) = args.flatMap hex2 := by
  induction format generalizing args with
  | nil =>
    rw [List.length_eq_zero_iff.mp h]
    rfl
  | cons piece format ih =>
    have hliteral' : ∀ c, .literal c ∈ format → c = '-' := fun c hc => hliteral c (.tail _ hc)
    cases piece with
    | hex =>
      rw [hexCount, List.count_cons_self] at h
      obtain ⟨a, args, rfl⟩ := List.exists_cons_of_length_eq_add_one h
      rw [render, digits, List.filter_append, ← digits, ← digits, digits_hex2,
        ih hliteral' (Nat.succ.inj h), List.flatMap_cons]
    | literal c =>
      have hcount : hexCount (.literal c :: format) = hexCount format := by simp [hexCount]
      rw [hcount] at h
      obtain rfl := hliteral c (.head _)
      exact ih hliteral' h

theorem literal_format (hyphens : Bool) :
    ∀ c, .literal c ∈ pieces (format hyphens).toList → c = '-' := by
  intro c hc
  have hall : (pieces (format hyphens).toList).all fun x => x = .hex || x = .literal '-' := by
    cases hyphens <;> decide
  simpa using List.all_eq_true.mp hall _ hc

/-- The first digit of a byte. -/
theorem getElem?_flatMap_hex2 (args : List UInt8) (i : Nat) :
    (args.flatMap hex2)[2 * i]? = args[i]?.map fun a => hexDigit (a.toNat / 16) := by
  induction args generalizing i with
  | nil => rfl
  | cons a args ih =>
    cases i with
    | zero => rfl
    | succ i => exact ih i

/-- A statement about a byte holds if it holds of all bit vectors. -/
theorem forall_byte {q : UInt8 → Prop} (h : ∀ b : BitVec 8, q ⟨b⟩) (x : UInt8) : q x := h x.toBitVec

theorem version_digit (x : UInt8) : hexDigit ((x &&& 0x0f ||| 0x40).toNat / 16) = '4' :=
  forall_byte (q := fun x => hexDigit ((x &&& 0x0f ||| 0x40).toNat / 16) = '4') (by decide) x

theorem variant_digit (x : UInt8) :
    hexDigit ((x &&& 0x3f ||| 0x80).toNat / 16) ∈ ['8', '9', 'a', 'b'] :=
  forall_byte (q := fun x => hexDigit ((x &&& 0x3f ||| 0x80).toNat / 16) ∈ ['8', '9', 'a', 'b'])
    (by decide) x

theorem digits_makeRandomUUID (hyphens : Bool) (rawBytes : RawBytes) :
    digits (makeRandomUUID hyphens rawBytes) = (mark rawBytes).toList.flatMap hex2 := by
  rw [makeRandomUUID_eq]
  exact digits_render (literal_format hyphens) (by rw [hexCount_format, Vector.length_toList])

theorem getElem?_mark (rawBytes : RawBytes) :
    (mark rawBytes).toList[6]? = some (rawBytes[6] &&& 0x0f ||| 0x40) ∧
      (mark rawBytes).toList[8]? = some ((rawBytes[6] &&& 0x0f ||| 0x40) &&& 0x3f ||| 0x80) := by
  constructor
  all_goals
    rw [Vector.getElem?_toList, Vector.getElem?_eq_getElem (by omega)]
    simp [mark]

theorem marked_makeRandomUUID (hyphens : Bool) (rawBytes : RawBytes) :
    Marked (makeRandomUUID hyphens rawBytes) := by
  obtain ⟨hversion, hvariant⟩ := getElem?_mark rawBytes
  constructor
  · rw [digits_makeRandomUUID, getElem?_flatMap_hex2 _ 6, hversion, Option.map_some, version_digit]
  · rw [digits_makeRandomUUID, getElem?_flatMap_hex2 _ 8, hvariant]
    exact ⟨_, variant_digit _, rfl⟩

/-! ## What the text keeps of the bytes -/

/-- Bit `k` of byte `i` is not the same. -/
def Differ (x y : RawBytes) (i : Fin 16) (k : Nat) : Prop :=
  x[i].toBitVec.getLsbD k ≠ y[i].toBitVec.getLsbD k

def IsVersionBit (i : Fin 16) (k : Nat) : Prop := i = 6 ∧ 4 ≤ k

def IsVariantBit (i : Fin 16) (k : Nat) : Prop := i = 8 ∧ 6 ≤ k

theorem makeRandomUUID_inj {x y : RawBytes} (hyphens : Bool) :
    makeRandomUUID hyphens x = makeRandomUUID hyphens y ↔ mark x = mark y := by
  rw [makeRandomUUID_eq, makeRandomUUID_eq]
  constructor
  · intro h
    exact Vector.toList_inj.mp (render_inj (by rw [hexCount_format, Vector.length_toList])
      (by rw [hexCount_format, Vector.length_toList]) h)
  · intro h
    rw [h]

/-- The four low bits are kept. -/
theorem getLsbD_version (x : UInt8) (k : Nat) (hk : k < 8) :
    (x &&& 0x0f ||| 0x40).toBitVec.getLsbD k =
      if k < 4 then x.toBitVec.getLsbD k else decide (k = 6) := by
  match k with
  | 0 | 1 | 2 | 3 | 4 | 5 | 6 | 7 => simp
  | _ + 8 => omega

theorem version_inj {x y : UInt8} : x &&& 0x0f ||| 0x40 = y &&& 0x0f ||| 0x40 ↔
    ∀ k < 4, x.toBitVec.getLsbD k = y.toBitVec.getLsbD k := by
  constructor
  · intro h k hk
    have hbit := congrArg (fun b => b.toBitVec.getLsbD k) h
    simpa only [getLsbD_version _ k (Nat.lt_trans hk (by decide)), if_pos hk] using hbit
  · intro h
    refine UInt8.toBitVec_inj.mp (BitVec.eq_of_getLsbD_eq fun k hk => ?_)
    rw [getLsbD_version x k hk, getLsbD_version y k hk]
    split
    · next hlow => exact h k hlow
    · rfl

theorem eq_iff_not_differ {x y : RawBytes} {i : Fin 16} : x[i] = y[i] ↔ ∀ k, ¬ Differ x y i k := by
  constructor
  · intro h k hdiffer
    exact hdiffer (by rw [h])
  · intro h
    exact UInt8.toBitVec_inj.mp (BitVec.eq_of_getLsbD_eq fun k _ => not_not.mp (h k))

theorem getElem_mark (x : RawBytes) (i : Fin 16) : (mark x)[i] =
    if i = 8 then (x[6] &&& 0x0f ||| 0x40) &&& 0x3f ||| 0x80
    else if i = 6 then x[6] &&& 0x0f ||| 0x40 else x[i] := by
  simp only [mark, Fin.getElem_fin, Vector.getElem_set, Fin.ext_iff, eq_comm (b := i.val)]
  rfl

/-- Of the byte of the variant nothing is kept. -/
theorem mark_inj {x y : RawBytes} : mark x = mark y ↔
    ∀ i k, Differ x y i k → IsVersionBit i k ∨ i = 8 := by
  constructor
  · intro h i k hdiffer
    by_contra hkept
    obtain ⟨hversion, hvariant⟩ := not_or.mp hkept
    have hbyte : (mark x)[i] = (mark y)[i] := by rw [h]
    rw [getElem_mark, getElem_mark, if_neg hvariant, if_neg hvariant] at hbyte
    by_cases hi : i = 6
    · subst hi
      rw [if_pos rfl, if_pos rfl] at hbyte
      have hk : k < 4 := Nat.lt_of_not_le fun hk => hversion ⟨rfl, hk⟩
      exact hdiffer (version_inj.mp hbyte k hk)
    · rw [if_neg hi, if_neg hi] at hbyte
      exact eq_iff_not_differ.mp hbyte k hdiffer
  · intro h
    have hsix : (x[6] &&& 0x0f ||| 0x40 : UInt8) = y[6] &&& 0x0f ||| 0x40 := by
      refine version_inj.mpr fun k hk => ?_
      by_contra hdiffer
      obtain ⟨-, hk'⟩ | h8 := h 6 k hdiffer
      · exact Nat.not_lt_of_le hk' hk
      · cases h8
    refine Vector.ext fun i hi => ?_
    refine (getElem_mark x ⟨i, hi⟩).trans (Eq.trans ?_ (getElem_mark y ⟨i, hi⟩).symm)
    rw [hsix]
    split
    · rfl
    split
    · rfl
    · next hvariant hversion =>
      refine eq_iff_not_differ.mpr fun k hdiffer => ?_
      exact (h _ k hdiffer).elim (fun h => hversion h.1) hvariant

/-- The texts are different for different bytes if and only if the bytes are not different in the
byte of the variant only. -/
theorem makeRandomUUID_entropy (hyphens : Bool) (x y : RawBytes) :
    (((∃ i k, Differ x y i k ∧ ¬ IsVersionBit i k ∧ ¬ IsVariantBit i k) →
        makeRandomUUID hyphens x ≠ makeRandomUUID hyphens y) ∧
      Marked (makeRandomUUID hyphens x) ∧ Marked (makeRandomUUID hyphens y)) ↔
    ((∃ i k, Differ x y i k ∧ ¬ IsVersionBit i k ∧ ¬ IsVariantBit i k) →
      ∃ i k, Differ x y i k ∧ ¬ IsVersionBit i k ∧ i ≠ 8) := by
  rw [and_iff_left ⟨marked_makeRandomUUID hyphens x, marked_makeRandomUUID hyphens y⟩]
  refine forall_congr' fun _ => ?_
  rw [ne_eq, makeRandomUUID_inj, mark_inj]
  simp only [not_forall, not_or, exists_prop]

/-- A bit of the ninth byte is lost. -/
theorem makeRandomUUID_lost :
    (∃ i k, Differ (Vector.replicate 16 0) ((Vector.replicate 16 0).set 8 1) i k ∧
      ¬ IsVersionBit i k ∧ ¬ IsVariantBit i k) ∧
    makeRandomUUID true (Vector.replicate 16 0) =
      makeRandomUUID true ((Vector.replicate 16 0).set 8 1) := by
  constructor
  · exact ⟨8, 0, by rw [Differ]; decide, fun h => absurd h.2 (by omega),
      fun h => absurd h.2 (by omega)⟩
  · exact (makeRandomUUID_inj true).mpr (by decide)

end McpeLauncher.Uuid
