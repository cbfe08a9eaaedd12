import Mathlib.Data.Nat.Digits.Defs

/-!
# Little-endian words and sequences of encodings

Words of a fixed number of bytes, the lowest byte first, and sequences of values whose encodings
stand one after the other without anything between them.
-/

namespace Codec

/-! ## Little-endian words -/

/-- The `k` lowest bytes of `n`. -/
def leBytes : Nat → Nat → List UInt8
  | 0, _ => []
  | k + 1, n => UInt8.ofNat n :: leBytes k (n / 256)

def leNat (bytes : List UInt8) : Nat := Nat.ofDigits 256 (bytes.map UInt8.toNat)

@[simp] theorem leBytes_length (k n : Nat) : (leBytes k n).length = k := by
  induction k generalizing n with
  | zero => rfl
  | succ k ih => rw [leBytes, List.length_cons, ih]

theorem leNat_cons (b : UInt8) (bytes : List UInt8) :
    leNat (b :: bytes) = b.toNat + 256 * leNat bytes := by
  rw [leNat, List.map_cons, Nat.ofDigits_cons, leNat]

@[simp] theorem leNat_leBytes (k n : Nat) : leNat (leBytes k n) = n % 256 ^ k := by
  induction k generalizing n with
  | zero => simp [leBytes, leNat, Nat.mod_one]
  | succ k ih => rw [leBytes, leNat_cons, ih, UInt8.toNat_ofNat', pow_succ' 256 k, Nat.mod_mul]

theorem leNat_lt (bytes : List UInt8) : leNat bytes < 256 ^ bytes.length := by
  rw [leNat, ← List.length_map (f := UInt8.toNat)]
  apply Nat.ofDigits_lt_base_pow_length (by decide)
  intro d hd
  obtain ⟨b, -, rfl⟩ := List.mem_map.mp hd
  exact b.toNat_lt

theorem leBytes_leNat (bytes : List UInt8) : leBytes bytes.length (leNat bytes) = bytes := by
  induction bytes with
  | nil => rfl
  | cons b bytes ih =>
    have hb := b.toNat_lt
    have hdiv : (b.toNat + 256 * leNat bytes) / 256 = leNat bytes := by omega
    have hmod : UInt8.ofNat (b.toNat + 256 * leNat bytes) = b := by
      apply UInt8.toNat_inj.mp
      rw [UInt8.toNat_ofNat']
      omega
    rw [List.length_cons, leNat_cons, leBytes, hdiv, hmod, ih]

/-! ## Sequences of encodings -/

section Sequences

variable {α β : Type _}

/-- `decode` takes the values one after the other from the bytes, and nothing is left. -/
inductive Decodes (decode : List β → Option (α × List β)) : List β → List α → Prop
  | nil : Decodes decode [] []
  | cons {bytes rest : List β} {a : α} {as : List α} (head : decode bytes = some (a, rest))
      (tail : Decodes decode rest as) : Decodes decode bytes (a :: as)

/-- What follows the encoding of `a` does not matter to `decode`. -/
def SelfDelimiting (encode : α → List β) (decode : List β → Option (α × List β)) (a : α) : Prop :=
  ∀ rest, decode (encode a ++ rest) = some (a, rest)

variable {encode : α → List β} {decode : List β → Option (α × List β)} {as bs : List α}
  {bytes : List β}

theorem decodes_flatMap (h : ∀ a ∈ as, SelfDelimiting encode decode a) :
    Decodes decode (as.flatMap encode) as := by
  induction as with
  | nil => exact .nil
  | cons a as ih =>
    rw [List.flatMap_cons]
    exact .cons (h a (.head _) _) (ih fun b hb => h b (.tail _ hb))

theorem Decodes.unique (hnil : decode [] = none) (has : Decodes decode bytes as)
    (hbs : Decodes decode bytes bs) : as = bs := by
  induction has generalizing bs with
  | nil =>
    cases hbs with
    | nil => rfl
    | cons hhead _ => rw [hnil] at hhead; cases hhead
  | cons hhead _ ih =>
    cases hbs with
    | nil => rw [hnil] at hhead; cases hhead
    | cons hhead' htail' =>
      rw [hhead] at hhead'
      cases hhead'
      rw [ih htail']

/-- Values that stand in front of the encoding of a sequence are the first ones of the sequence. -/
theorem eq_append_of_flatMap (hnil : decode [] = none)
    (has : ∀ a ∈ as, SelfDelimiting encode decode a)
    (hbs : ∀ b ∈ bs, SelfDelimiting encode decode b)
    (h : as.flatMap encode = bs.flatMap encode ++ bytes) :
    ∃ cs, as = bs ++ cs ∧ bytes = cs.flatMap encode := by
  induction bs generalizing as with
  | nil => exact ⟨as, rfl, h.symm⟩
  | cons b bs ih =>
    have hdecode := hbs b (.head _) (bs.flatMap encode ++ bytes)
    rw [← List.append_assoc, ← List.flatMap_cons, ← h] at hdecode
    cases as with
    | nil => rw [List.flatMap_nil, hnil] at hdecode; cases hdecode
    | cons a as =>
      rw [List.flatMap_cons, has a (.head _)] at hdecode
      obtain ⟨rfl, hrest⟩ := Prod.mk.inj (Option.some.inj hdecode)
      obtain ⟨cs, rfl, hbytes⟩ :=
        ih (fun c hc => has c (.tail _ hc)) (fun c hc => hbs c (.tail _ hc)) hrest
      exact ⟨cs, rfl, hbytes⟩

end Sequences

end Codec
