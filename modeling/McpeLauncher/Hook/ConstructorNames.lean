import McpeLauncher.Lib.StrTo
import McpeLauncher.Lib.Walks

/-!
# Constructor names

`translateConstructorName` looks for the `C2` of a mangled constructor. It jumps over identifiers by
the number in front of each, as `strtol` reads it: with a sign or blanks the number is none of the
mangling, and a negative one leads backwards.
-/

namespace McpeLauncher.Hook
open StrTo Walks

/-- A string with a zero behind it, at an address of `bits` bits. -/
structure CString where
  bits : Nat
  base : Nat
  chars : List UInt8
  noNul : 0 ∉ chars
  fits : base + chars.length < 2 ^ bits
  short : chars.length < 2 ^ (bits - 1)

namespace CString

/-- The address of the zero. -/
def stop (n : CString) : Nat := n.base + n.chars.length

/-- The string from an address on. -/
def rest (n : CString) (s : Nat) : List UInt8 := n.chars.drop (s - n.base)

/-- One round of the loop: where it leads to, and none where the loop is left. It is also none where
the byte that is examined is in front of the string. -/
def next (n : CString) (s : Nat) : Option Nat :=
  if s ≥ n.stop ∨ s < n.base then none
  else if (n.rest s).head? = some 78 then some (s + 1)
  else
    let (len, read) := strtol n.bits 10 (n.rest s)
    if read = 0 then none
    else some (((s + read : Nat) + len) % 2 ^ n.bits).toNat

end CString

inductive Translation
  | outside
  | returns (name : List UInt8)
  deriving DecidableEq

def translateConstructorName (fuel : Nat) (n : CString) : Option Translation :=
  if n.chars.length < 2 ∨ n.chars.take 2 ≠ [95, 90] then some (.returns [])
  else
    (finish n.next fuel (n.base + 2)).map fun s =>
      if s < n.base then .outside
      else if s ≥ n.stop then .returns []
      else if n.stop - s ≥ 2 ∧ n.chars[s - n.base]? = some 67 ∧
          n.chars[s - n.base + 1]? = some 50 then
        .returns (n.chars.set (s - n.base + 1) 49)
      else .returns []

/-! ## Names -/

/-- Any mixture of `N` and identifiers behind their lengths, and then `C2`, which is `k` characters
away. -/
inductive NameBefore : List UInt8 → Nat → Prop
  | here (rest : List UInt8) : NameBefore (67 :: 50 :: rest) 0
  | nested {s : List UInt8} {k : Nat} (h : NameBefore s k) : NameBefore (78 :: s) (k + 1)
  | identifier {digits ident s : List UInt8} {k : Nat} (hne : digits ≠ [])
      (hdigits : ∀ c ∈ digits, isDigit 10 c = true)
      (hwhole : ∀ c ∈ (ident ++ s).head?, isDigit 10 c = false)
      (hlength : ident.length = ofDigits 10 digits) (h : NameBefore s k) :
      NameBefore (digits ++ (ident ++ s)) (digits.length + ident.length + k)

/-- `_Z`, and a name with its `C2` at the place `k`. -/
def IsConstructorName (chars : List UInt8) (k : Nat) : Prop :=
  ∃ s j, chars = 95 :: 90 :: s ∧ NameBefore s j ∧ k = j + 2

/-- The function terminates and reads only inside the string, and it translates the constructor
names and nothing else. -/
def TranslatesRight (n : CString) : Prop :=
  ∃ fuel r, translateConstructorName fuel n = some (.returns r) ∧
    (r ≠ [] ↔ ∃ k, IsConstructorName n.chars k) ∧
    ∀ k, IsConstructorName n.chars k → r = n.chars.set (k + 1) 49

namespace CString

/-- A number that is read at `s` begins with a digit, and the jump over it does not leave the
address space. -/
def PlainAt (n : CString) (s : Nat) : Prop :=
  n.base ≤ s → s < n.stop → (n.rest s).head? ≠ some 78 → (strtol n.bits 10 (n.rest s)).2 ≠ 0 →
    (∀ c ∈ (n.rest s).head?, isDigit 10 c = true) ∧
    ((s + (strtol n.bits 10 (n.rest s)).2 : Nat) : Int) + (strtol n.bits 10 (n.rest s)).1 <
      2 ^ n.bits

/-- All numbers that the loop comes to are plain. -/
def ReadsPlainly (n : CString) : Prop := ∀ s, Comes n.next (n.base + 2) s → n.PlainAt s

/-- The loop comes to no place in front of the string, to no place twice, and to no `C2`. -/
def StaysClear (n : CString) : Prop :=
  ∀ s, Comes n.next (n.base + 2) s →
    n.base ≤ s ∧ (∀ t, n.next s = some t → ¬Comes n.next t s) ∧ ¬[67, 50] <+: n.rest s

/-! ## One round -/

section Round

variable {n : CString} {s t : Nat} {c : UInt8} {cs digits more : List UInt8}

theorem rest_add (h : n.base ≤ s) (k : Nat) : n.rest (s + k) = (n.rest s).drop k := by
  rw [rest, rest, List.drop_drop]
  congr 1
  omega

theorem length_rest (h : n.base ≤ s) : s + (n.rest s).length = max s n.stop := by
  rw [rest, List.length_drop, stop]
  omega

theorem lt_stop_of_rest (h : n.base ≤ s) (hcs : n.rest s = c :: cs) : s < n.stop := by
  have := length_rest h
  rw [hcs, List.length_cons] at this
  omega

/-- Where the loop goes on, the place is inside the string. -/
theorem inside_of_next (h : n.next s = some t) : n.base ≤ s ∧ s < n.stop := by
  rw [next] at h
  split at h
  · cases h
  · omega

theorem next_of_outside (h : s < n.base) : n.next s = none := if_pos (.inr h)

theorem next_of_nested (h : n.base ≤ s) (hcs : n.rest s = 78 :: cs) :
    n.next s = some (s + 1) := by
  have := lt_stop_of_rest h hcs
  rw [next, if_neg (by omega), hcs]
  exact if_pos rfl

theorem takeWhile_digits (hdigits : ∀ c ∈ digits, isDigit 10 c = true)
    (hwhole : ∀ c ∈ more.head?, isDigit 10 c = false) :
    (digits ++ more).takeWhile (isDigit 10) = digits := by
  rw [List.takeWhile_append_of_pos hdigits]
  cases more with
  | nil => rw [List.takeWhile_nil, List.append_nil]
  | cons c more =>
    rw [List.takeWhile_cons_of_neg (by simp [hwhole c rfl]), List.append_nil]

theorem cast_two_pow (k : Nat) : ((2 ^ k : Nat) : Int) = 2 ^ k := by
  push_cast
  rfl

/-- A number in front of which there is nothing. -/
theorem strtol_digits (bits : Nat) (hne : digits ≠ []) (hdigits : ∀ c ∈ digits, isDigit 10 c = true)
    (hwhole : ∀ c ∈ more.head?, isDigit 10 c = false) :
    strtol bits 10 (digits ++ more) =
      (min (2 ^ (bits - 1) - 1) (ofDigits 10 digits : Int), digits.length) := by
  have htake := takeWhile_digits hdigits hwhole
  obtain ⟨d, ds, rfl⟩ := List.exists_cons_of_ne_nil hne
  rw [List.cons_append] at htake ⊢
  rw [strtol, numeral_of_isDigit (by decide) (hdigits d (.head _))
    (dropHexMark_of_ne (by decide) _), htake]
  rfl

theorem digits_ne_nested (hne : digits ≠ []) (hdigits : ∀ c ∈ digits, isDigit 10 c = true) :
    (digits ++ more).head? ≠ some 78 := by
  obtain ⟨d, ds, rfl⟩ := List.exists_cons_of_ne_nil hne
  intro h
  have hd := hdigits d (.head _)
  rw [Option.some.inj h] at hd
  exact absurd hd (by decide)

/-- An identifier and its length end in the address space. -/
theorem identifier_lt {ident : List UInt8} (h : n.base ≤ s) (hne : digits ≠ [])
    (hcs : n.rest s = digits ++ (ident ++ cs)) :
    s + (digits.length + ident.length) < 2 ^ n.bits ∧ ident.length < 2 ^ (n.bits - 1) := by
  have hpos := List.length_pos_of_ne_nil hne
  have hlen := length_rest h
  rw [hcs, List.length_append, List.length_append] at hlen
  have hstop : n.stop = n.base + n.chars.length := rfl
  have hfits := n.fits
  have hshort := n.short
  omega

/-- The jump over an identifier of the right length. -/
theorem next_of_identifier {ident : List UInt8} (h : n.base ≤ s) (hne : digits ≠ [])
    (hdigits : ∀ c ∈ digits, isDigit 10 c = true)
    (hwhole : ∀ c ∈ (ident ++ cs).head?, isDigit 10 c = false)
    (hlength : ident.length = ofDigits 10 digits) (hcs : n.rest s = digits ++ (ident ++ cs)) :
    n.next s = some (s + (digits.length + ident.length)) ∧
      (strtol n.bits 10 (n.rest s)) = ((ident.length : Int), digits.length) := by
  have hpos := List.length_pos_of_ne_nil hne
  obtain ⟨hlt, hident⟩ := identifier_lt h hne hcs
  have hvalue : strtol n.bits 10 (n.rest s) = ((ident.length : Int), digits.length) := by
    have hcast := cast_two_pow (n.bits - 1)
    rw [hcs, strtol_digits _ hne hdigits hwhole, ← hlength, Int.min_eq_right (by omega)]
  refine ⟨?_, hvalue⟩
  have hcast := cast_two_pow n.bits
  have hinside : n.base ≤ s ∧ s < n.stop := by
    obtain ⟨d, ds, rfl⟩ := List.exists_cons_of_ne_nil hne
    exact ⟨h, lt_stop_of_rest h hcs⟩
  rw [next, if_neg (by omega), if_neg (hcs ▸ digits_ne_nested hne hdigits), hvalue]
  simp only
  rw [if_neg (by omega), Option.some.injEq, Int.emod_eq_of_lt (by omega) (by omega)]
  omega

/-- At a `C2` the loop is left. -/
theorem strtol_of_C2 (bits : Nat) (cs : List UInt8) : strtol bits 10 (67 :: cs) = (0, 0) := by
  have hnone : numeral 10 (67 :: cs) = none := by
    simp only [numeral, dropHexMark_of_ne (show 10 ≠ 16 by decide)]
    rfl
  rw [strtol, hnone]

theorem next_of_C2 (hcs : n.rest s = 67 :: cs) : n.next s = none := by
  rw [next, hcs]
  split
  · rfl
  · rw [if_neg (by simp), strtol_of_C2]
    rfl

end Round

/-! ## Walks -/

section Walk

variable {n : CString} {s t : Nat} {k : Nat} {cs : List UInt8}

/-- The loop follows a name up to its `C2`, over plain numbers only. -/
theorem comes_of_nameBefore (h : NameBefore cs k) (hs : n.base ≤ s) (hcs : n.rest s = cs) :
    Comes n.next s (s + k) ∧ [67, 50] <+: n.rest (s + k) ∧
      ∀ u, Comes n.next s u → n.base ≤ u ∧ n.PlainAt u := by
  induction h generalizing s with
  | here rest =>
    refine ⟨.here s, ⟨rest, hcs.symm⟩, fun u hu => ?_⟩
    cases hu with
    | here =>
      refine ⟨hs, fun _ _ _ hread => absurd ?_ hread⟩
      rw [hcs, strtol_of_C2]
    | step hst => cases hst.symm.trans (next_of_C2 hcs)
  | @nested cs k hname ih =>
    have hnext := next_of_nested hs hcs
    obtain ⟨hcomes, hC2, hplain⟩ := ih (s := s + 1) (by omega) (by rw [rest_add hs, hcs]; rfl)
    rw [Nat.add_assoc, Nat.add_comm 1 k] at hcomes hC2
    refine ⟨.step hnext hcomes, hC2, Comes.forall_of_step hnext ⟨hs, fun _ _ hN => ?_⟩ hplain⟩
    exact absurd (by rw [hcs]; rfl) hN
  | @identifier digits ident cs k hne hdigits hwhole hlength hname ih =>
    obtain ⟨hnext, hvalue⟩ := next_of_identifier hs hne hdigits hwhole hlength hcs
    have hrest : n.rest (s + (digits.length + ident.length)) = cs := by
      rw [rest_add hs, hcs, ← List.append_assoc, ← List.length_append, List.drop_left]
    obtain ⟨hcomes, hC2, hplain⟩ := ih (s := s + (digits.length + ident.length)) (by omega) hrest
    rw [Nat.add_assoc] at hcomes hC2
    refine ⟨.step hnext hcomes, hC2, Comes.forall_of_step hnext
      ⟨hs, fun _ _ _ _ => ⟨fun c hc => ?_, ?_⟩⟩ hplain⟩
    · obtain ⟨d, ds, rfl⟩ := List.exists_cons_of_ne_nil hne
      rw [hcs, List.cons_append] at hc
      cases hc
      exact hdigits _ (.head _)
    · have hlt := (identifier_lt hs hne hcs).1
      have hcast := cast_two_pow n.bits
      rw [hvalue]
      simp only
      omega

/-- A round leads over an `N` or over a number. -/
theorem next_cases (h : n.next s = some t) :
    (∃ cs, n.rest s = 78 :: cs ∧ t = s + 1) ∨
    ((n.rest s).head? ≠ some 78 ∧ (strtol n.bits 10 (n.rest s)).2 ≠ 0 ∧
      t = (((s + (strtol n.bits 10 (n.rest s)).2 : Nat) + (strtol n.bits 10 (n.rest s)).1) %
        2 ^ n.bits).toNat) := by
  obtain ⟨hs, hlt⟩ := inside_of_next h
  rw [next, if_neg (by omega)] at h
  split at h
  · rename_i hN
    obtain ⟨cs, hcs⟩ := List.head?_eq_some_iff.mp hN
    exact .inl ⟨cs, hcs, (Option.some.inj h).symm⟩
  · rename_i hN
    simp only at h
    split at h
    · cases h
    · rename_i hread
      exact .inr ⟨hN, hread, (Option.some.inj h).symm⟩

/-- A jump over a plain number: its digits, and as far as the number says, or out of the string. -/
theorem next_of_plain (hplain : n.PlainAt s) (h : n.next s = some t)
    (hN : (n.rest s).head? ≠ some 78) (hread : (strtol n.bits 10 (n.rest s)).2 ≠ 0) :
    ∃ digits more, n.rest s = digits ++ more ∧ digits ≠ [] ∧
      (∀ c ∈ digits, isDigit 10 c = true) ∧ (∀ c ∈ more.head?, isDigit 10 c = false) ∧
      s + digits.length ≤ t ∧ (t < n.stop → t = s + (digits.length + ofDigits 10 digits)) := by
  obtain ⟨hs, hlt⟩ := inside_of_next h
  obtain ⟨hdigit, hwrap⟩ := hplain hs hlt hN hread
  let digits := (n.rest s).takeWhile (isDigit 10)
  let more := (n.rest s).dropWhile (isDigit 10)
  have hsplit : n.rest s = digits ++ more := List.takeWhile_append_dropWhile.symm
  have hdigits : ∀ c ∈ digits, isDigit 10 c = true := fun c hc => List.mem_takeWhile_imp hc
  have hwhole : ∀ c ∈ more.head?, isDigit 10 c = false := by
    intro c hc
    have hnot := List.head?_dropWhile_not (isDigit 10) (n.rest s)
    rw [show (n.rest s).dropWhile (isDigit 10) = more from rfl, hc] at hnot
    exact hnot
  have hne : digits ≠ [] := by
    have hlen := length_rest hs
    cases hcs : n.rest s with
    | nil =>
      rw [hcs, List.length_nil] at hlen
      omega
    | cons c cs =>
      have hc := hdigit c (by rw [hcs]; rfl)
      simp only [digits, hcs, List.takeWhile_cons_of_pos hc]
      exact List.cons_ne_nil _ _
  have hvalue := strtol_digits n.bits hne hdigits hwhole
  rw [← hsplit] at hvalue
  obtain ⟨cs, hcs, -⟩ | ⟨-, -, ht⟩ := next_cases h
  · exact absurd (by rw [hcs]; rfl) hN
  rw [hvalue] at ht hwrap
  simp only at ht hwrap
  have hpos : (0 : Int) < 2 ^ (n.bits - 1) := by positivity
  have hcast := cast_two_pow (n.bits - 1)
  have hshort := n.short
  have hstop : n.stop = n.base + n.chars.length := rfl
  have hdigitsPos := List.length_pos_of_ne_nil hne
  rw [Int.emod_eq_of_lt (by omega) hwrap] at ht
  exact ⟨digits, more, hsplit, hne, hdigits, hwhole, by omega, fun hinside => by omega⟩

/-- Over plain numbers the loop only goes on. -/
theorem lt_of_next (hplain : n.PlainAt s) (h : n.next s = some t) : s < t := by
  obtain ⟨cs, -, rfl⟩ | ⟨hN, hread, -⟩ := next_cases h
  · exact Nat.lt_succ_self s
  · obtain ⟨digits, -, -, hne, -, -, hle, -⟩ := next_of_plain hplain h hN hread
    have := List.length_pos_of_ne_nil hne
    omega

/-- Where the loop comes to over plain numbers is behind. -/
theorem le_of_comes (h : Comes n.next s t) (hplain : ∀ u, Comes n.next s u → n.PlainAt u) :
    s ≤ t := by
  induction h with
  | here => exact le_rfl
  | step hst _ ih =>
    have hlt := lt_of_next (hplain _ (.here _)) hst
    have := ih fun u hu => hplain u (.step hst hu)
    omega

/-- A `C2` that the loop comes to over plain numbers ends a name. -/
theorem nameBefore_of_comes (h : Comes n.next s t) (hplain : ∀ u, Comes n.next s u → n.PlainAt u)
    (hs : n.base ≤ s) (ht : [67, 50] <+: n.rest t) : NameBefore (n.rest s) (t - s) := by
  induction h with
  | here s =>
    obtain ⟨cs, hcs⟩ := ht
    rw [← hcs, Nat.sub_self]
    exact .here cs
  | @step s s' t hst hcomes ih =>
    have hplain' : ∀ u, Comes n.next s' u → n.PlainAt u := fun u hu => hplain u (.step hst hu)
    have hlt := lt_of_next (hplain s (.here s)) hst
    have hle := le_of_comes hcomes hplain'
    have hname := ih hplain' (by omega) ht
    obtain ⟨cs, hcs, rfl⟩ | ⟨hN, hread, -⟩ := next_cases hst
    · have hrest : n.rest (s + 1) = cs := by rw [rest_add hs, hcs]; rfl
      rw [hrest] at hname
      rw [hcs, show t - s = t - (s + 1) + 1 by omega]
      exact .nested hname
    · obtain ⟨digits, more, hsplit, hne, hdigits, hwhole, -, hjump⟩ :=
        next_of_plain (hplain s (.here s)) hst hN hread
      have hinside : t < n.stop := by
        obtain ⟨cs, hcs⟩ := ht
        exact lt_stop_of_rest (by omega) hcs.symm
      have hjump := hjump (by omega)
      have hlen := length_rest hs
      rw [hsplit, List.length_append] at hlen
      have hident : (more.take (ofDigits 10 digits)).length = ofDigits 10 digits :=
        List.length_take_of_le (by omega)
      have hrest : n.rest s' = more.drop (ofDigits 10 digits) := by
        rw [hjump, rest_add hs, hsplit, List.drop_length_add_append]
      rw [hrest] at hname
      have hall := NameBefore.identifier hne hdigits
        (by rwa [List.take_append_drop]) hident hname
      rw [List.take_append_drop, hident] at hall
      rw [hsplit, show t - s = digits.length + ofDigits 10 digits + (t - s') by omega]
      exact hall

end Walk

/-! ## The whole function -/

section Whole

variable {n : CString} {s k : Nat}

/-- Behind `_Z` a name of the string begins two places behind its start. -/
theorem isConstructorName_iff (hZ : n.chars.take 2 = [95, 90]) :
    IsConstructorName n.chars k ↔ ∃ j, NameBefore (n.rest (n.base + 2)) j ∧ k = j + 2 := by
  have hrest : n.rest (n.base + 2) = n.chars.drop 2 := by
    rw [rest, Nat.add_sub_cancel_left]
  have hsplit : n.chars = 95 :: 90 :: n.chars.drop 2 := by
    conv_lhs => rw [← List.take_append_drop 2 n.chars, hZ]
    rfl
  rw [hrest]
  constructor
  · rintro ⟨s, j, hs, hname, rfl⟩
    refine ⟨j, ?_, rfl⟩
    rw [hs]
    exact hname
  · rintro ⟨j, hname, rfl⟩
    exact ⟨n.chars.drop 2, j, hsplit, hname, rfl⟩

theorem C2_iff (hs : n.base ≤ s) :
    [67, 50] <+: n.rest s ↔ n.stop - s ≥ 2 ∧ n.chars[s - n.base]? = some 67 ∧
      n.chars[s - n.base + 1]? = some 50 := by
  have h0 : (n.rest s)[0]? = n.chars[s - n.base]? := by
    rw [rest, List.getElem?_drop, Nat.add_zero]
  have h1 : (n.rest s)[1]? = n.chars[s - n.base + 1]? := by rw [rest, List.getElem?_drop]
  have hlen := length_rest hs
  rw [← h0, ← h1]
  constructor
  · rintro ⟨cs, hcs⟩
    rw [← hcs] at hlen ⊢
    refine ⟨?_, rfl, rfl⟩
    simp only [List.length_append, List.length_cons, List.length_nil] at hlen
    omega
  · rintro ⟨-, hC, h2⟩
    cases hcs : n.rest s with
    | nil =>
      rw [hcs] at hC
      cases hC
    | cons c cs =>
      rw [hcs] at hC h2
      cases hC
      cases cs with
      | nil => cases h2
      | cons d cs =>
        cases h2
        exact ⟨cs, rfl⟩

theorem C2_next (h : [67, 50] <+: n.rest s) : n.next s = none := by
  obtain ⟨cs, hcs⟩ := h
  exact next_of_C2 hcs.symm

theorem two_le_length (hZ : n.chars.take 2 = [95, 90]) : 2 ≤ n.chars.length := by
  have hlen := congrArg List.length hZ
  rw [List.length_take] at hlen
  simp only [List.length_cons, List.length_nil] at hlen
  omega

theorem set_ne_nil (hZ : n.chars.take 2 = [95, 90]) (i : Nat) : n.chars.set i 49 ≠ [] := by
  rw [Ne, List.set_eq_nil_iff]
  rintro hnil
  have hlen := two_le_length hZ
  rw [hnil] at hlen
  cases hlen

/-- What is made of the place where the loop ends. -/
theorem translate_of_finish {fuel : Nat} (hZ : n.chars.take 2 = [95, 90]) (hs : n.base ≤ s)
    (h : finish n.next fuel (n.base + 2) = some s) :
    translateConstructorName fuel n = some (.returns (
      if n.stop - s ≥ 2 ∧ n.chars[s - n.base]? = some 67 ∧ n.chars[s - n.base + 1]? = some 50 then
        n.chars.set (s - n.base + 1) 49
      else [])) := by
  have hlen := Nat.not_lt_of_le (two_le_length hZ)
  rw [translateConstructorName, if_neg (by simp [hlen, hZ]), h, Option.map_some,
    if_neg (by omega)]
  split
  · rw [if_neg (by omega)]
  · split <;> rfl

/-- A name is translated, whatever else the loop does with other strings. -/
theorem translate_of_name (hZ : n.chars.take 2 = [95, 90]) (h : IsConstructorName n.chars k) :
    n.ReadsPlainly ∧ Comes n.next (n.base + 2) (n.base + k) ∧ [67, 50] <+: n.rest (n.base + k) := by
  obtain ⟨j, hname, rfl⟩ := (isConstructorName_iff hZ).mp h
  obtain ⟨hcomes, hC2, hplain⟩ := comes_of_nameBefore hname (Nat.le_add_right _ _) rfl
  rw [Nat.add_assoc, Nat.add_comm 2 j] at hcomes hC2
  exact ⟨fun s hs => (hplain s hs).2, hcomes, hC2⟩

/-- Where the loop ends inside, the result is right if a `C2` there ends a name. -/
theorem translatesRight_of_end (hZ : n.chars.take 2 = [95, 90]) (hs : n.base ≤ s)
    (hcomes : Comes n.next (n.base + 2) s) (hend : n.next s = none)
    (hname : [67, 50] <+: n.rest s → ∃ k, IsConstructorName n.chars k) : TranslatesRight n := by
  obtain ⟨fuel, hfuel⟩ := hcomes.finish hend
  have hplace (k : Nat) (hk : IsConstructorName n.chars k) : s = n.base + k := by
    obtain ⟨-, hcomes', hC2⟩ := translate_of_name hZ hk
    exact hcomes.eq_of_end hcomes' hend (C2_next hC2)
  refine ⟨fuel, _, translate_of_finish hZ hs hfuel, ?_, fun k hk => ?_⟩
  · constructor
    · intro hr
      by_cases hC2 : [67, 50] <+: n.rest s
      · exact hname hC2
      · exact absurd (if_neg fun h => hC2 ((C2_iff hs).mpr h)) hr
    · rintro ⟨k, hk⟩
      obtain ⟨-, -, hC2⟩ := translate_of_name hZ hk
      rw [← hplace k hk, C2_iff hs] at hC2
      rw [if_pos hC2]
      exact set_ne_nil hZ _
  · obtain ⟨-, -, hC2⟩ := translate_of_name hZ hk
    rw [← hplace k hk, C2_iff hs] at hC2
    rw [if_pos hC2, hplace k hk, Nat.add_sub_cancel_left]

/-- A string that does not begin with `_Z` is no constructor name, and is not translated. -/
theorem translatesRight_of_other (hZ : n.chars.take 2 ≠ [95, 90]) : TranslatesRight n := by
  have hnot (k : Nat) : ¬IsConstructorName n.chars k := by
    rintro ⟨s, j, hs, -⟩
    exact hZ (by rw [hs]; rfl)
  refine ⟨0, [], if_pos (.inr hZ), iff_of_false (fun h => h rfl) fun ⟨k, hk⟩ => hnot k hk,
    fun k hk => absurd hk (hnot k)⟩

theorem translatesRight_of_readsPlainly (hZ : n.chars.take 2 = [95, 90]) (h : n.ReadsPlainly) :
    TranslatesRight n := by
  have hle (s : Nat) (hs : Comes n.next (n.base + 2) s) : n.base + 2 ≤ s := le_of_comes hs h
  obtain ⟨s, hcomes, hend⟩ := @exists_end n.next (n.base + 2) n.stop
    (fun t _ ht => by
      obtain ⟨u, hu⟩ := Option.ne_none_iff_exists'.mp ht
      exact (inside_of_next hu).2)
    fun t u ht hu hback => by
      have hlt := lt_of_next (h t ht) hu
      have hback := le_of_comes hback fun v hv => h v (ht.trans (.step hu hv))
      omega
  have hs := hle s hcomes
  refine translatesRight_of_end hZ (by omega) hcomes hend fun hC2 => ?_
  exact ⟨_, (isConstructorName_iff hZ).mpr
    ⟨_, nameBefore_of_comes hcomes h (Nat.le_add_right _ _) hC2, rfl⟩⟩

theorem translatesRight_of_staysClear (hZ : n.chars.take 2 = [95, 90]) (h : n.StaysClear) :
    TranslatesRight n := by
  obtain ⟨s, hcomes, hend⟩ := @exists_end n.next (n.base + 2) n.stop
    (fun t _ ht => by
      obtain ⟨u, hu⟩ := Option.ne_none_iff_exists'.mp ht
      exact (inside_of_next hu).2)
    fun t u ht hu => (h t ht).2.1 u hu
  obtain ⟨hs, -, hC2⟩ := h s hcomes
  exact translatesRight_of_end hZ hs hcomes hend fun h => absurd h hC2

/-- A result means that the loop has ended inside. -/
theorem finish_of_translate {fuel : Nat} {r : List UInt8} (hZ : n.chars.take 2 = [95, 90])
    (h : translateConstructorName fuel n = some (.returns r)) :
    ∃ s, finish n.next fuel (n.base + 2) = some s ∧ n.base ≤ s := by
  have hlen := Nat.not_lt_of_le (two_le_length hZ)
  rw [translateConstructorName, if_neg (by simp [hlen, hZ])] at h
  obtain ⟨s, hs, hr⟩ := Option.map_eq_some_iff.mp h
  refine ⟨s, hs, ?_⟩
  by_contra hlt
  rw [if_pos (by omega)] at hr
  cases hr

/-- The translation is right if and only if the string does not begin with `_Z`, or all numbers that
the loop comes to are plain, or the loop, though it reads another number, comes to no place in front
of the string, to none twice and to no `C2`. -/
theorem translatesRight_iff (n : CString) :
    TranslatesRight n ↔ (n.chars.take 2 = [95, 90] → n.ReadsPlainly ∨ n.StaysClear) := by
  by_cases hZ : n.chars.take 2 = [95, 90]
  · rw [imp_iff_right hZ]
    constructor
    · rintro ⟨fuel, r, htranslate, hiff, -⟩
      obtain ⟨s, hfinish, hs⟩ := finish_of_translate hZ htranslate
      obtain ⟨hcomes, hend⟩ := comes_of_finish hfinish
      by_cases hname : ∃ k, IsConstructorName n.chars k
      · obtain ⟨k, hk⟩ := hname
        exact .inl (translate_of_name hZ hk).1
      · refine .inr fun t ht => ⟨?_, fun u hu hback => ?_, fun hC2 => hname ?_⟩
        · by_contra hlt
          cases ht.eq_of_end hcomes (next_of_outside (by omega)) hend
          exact hlt hs
        · have hto := ht.to_end hcomes hend
          obtain ⟨fuel', hfuel'⟩ := hto.finish hend
          rw [finish_eq_none_of_cycle hu hback] at hfuel'
          cases hfuel'
        · cases ht.eq_of_end hcomes (C2_next hC2) hend
          rw [translate_of_finish hZ hs hfinish, if_pos ((C2_iff hs).mp hC2)] at htranslate
          apply hiff.mp
          cases htranslate
          exact set_ne_nil hZ _
    · rintro (h | h)
      · exact translatesRight_of_readsPlainly hZ h
      · exact translatesRight_of_staysClear hZ h
  · exact iff_of_true (translatesRight_of_other hZ) fun h => absurd h hZ

end Whole

/-- `_Z-2`. -/
def minusTwo : CString := ⟨64, 4096, [95, 90, 45, 50], by decide, by decide, by decide⟩

/-- The jump over `-2` leads back to it. -/
theorem not_translatesRight_minusTwo :
    (∀ fuel, translateConstructorName fuel minusTwo = none) ∧ ¬TranslatesRight minusTwo := by
  have hnext : minusTwo.next 4098 = some 4098 := by decide +kernel
  have hnone : ∀ fuel, translateConstructorName fuel minusTwo = none := by
    intro fuel
    have hloop := finish_eq_none_of_cycle hnext (.here 4098) fuel
    rw [translateConstructorName, if_neg (by decide)]
    exact congrArg (Option.map _) hloop
  refine ⟨hnone, ?_⟩
  rintro ⟨fuel, r, hr, -⟩
  cases (hnone fuel).symm.trans hr

end CString
end McpeLauncher.Hook
