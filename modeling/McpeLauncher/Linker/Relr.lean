import McpeLauncher.Lib.Relr

/-!
# Relative relocations

`soinfo::relocate_relr` adds the load bias to the words that the table of the library gives. Words
are in memory at multiples of their size; an access to any other address is not defined.
-/

namespace McpeLauncher.Linker
open Elf Elf.Relr

/-- `ElfW(Addr)`. -/
abbrev Addr (c : ElfClass) := BitVec (8 * c.word)

/-- The words in memory, by address. -/
abbrev Words (c : ElfClass) := Addr c → Addr c

namespace Relr

variable {c : ElfClass} (loadBias : Addr c)

def applyRelrReloc (offset : Addr c) (m : Words c) : Option (Words c) :=
  let address := offset + loadBias
  if address.toNat % c.word = 0 then
    some (Function.update m address (m address + loadBias))
  else none

theorem shiftRight_lt {entry : Addr c} (h : entry ≠ 0) : (entry >>> 1).toNat < entry.toNat := by
  have hpos : entry.toNat ≠ 0 := fun h0 => h (BitVec.eq_of_toNat_eq h0)
  rw [BitVec.toNat_ushiftRight, Nat.shiftRight_one]
  omega

/-- The loop over the bits of an odd entry. -/
def relocateBits (entry offset : Addr c) (m : Words c) : Option (Words c) :=
  if h : entry = 0 then some m
  else do
    let m ← if (entry >>> 1).getLsbD 0 then applyRelrReloc loadBias offset m else some m
    relocateBits (entry >>> 1) (offset + BitVec.ofNat _ c.word) m
termination_by entry.toNat
decreasing_by exact shiftRight_lt h

/-- The loop over the entries. -/
def relocateEntries : List (Addr c) → (base : Addr c) → Words c → Option (Words c)
  | [], _, m => some m
  | entry :: rest, base, m =>
    if entry.getLsbD 0 = false then do
      let m ← applyRelrReloc loadBias entry m
      relocateEntries rest (entry + BitVec.ofNat _ c.word) m
    else do
      let m ← relocateBits loadBias entry base m
      relocateEntries rest (base + BitVec.ofNat _ ((8 * c.word - 1) * c.word)) m

def relocateRelr (relr : List (Addr c)) (m : Words c) : Option (Words c) :=
  relocateEntries loadBias relr 0 m

/-! ## The table as a list of words -/

/-- The address of a word. -/
def address (c : ElfClass) (k : Nat) : Addr c := BitVec.ofNat _ (k * c.word)

/-- One relocation after the other. -/
def applyAll (ks : List Nat) (m : Words c) : Option (Words c) :=
  ks.foldlM (fun m k => applyRelrReloc loadBias (address c k) m) m

variable {loadBias}

theorem applyAll_cons (k : Nat) (ks : List Nat) (m : Words c) :
    applyAll loadBias (k :: ks) m =
      (applyRelrReloc loadBias (address c k) m).bind (applyAll loadBias ks) := rfl

theorem applyAll_append (ks ls : List Nat) (m : Words c) :
    applyAll loadBias (ks ++ ls) m = (applyAll loadBias ks m).bind (applyAll loadBias ls) :=
  List.foldlM_append ..

theorem address_add (k n : Nat) :
    address c k + BitVec.ofNat _ (n * c.word) = address c (k + n) := by
  rw [address, address, ← BitVec.ofNat_add, Nat.add_mul]

theorem address_succ (k : Nat) : address c k + BitVec.ofNat _ c.word = address c (k + 1) := by
  rw [← address_add, Nat.one_mul]

/-- The bits of a number are its lowest one and those of its half, one further. -/
theorem map_bitIndices (n base : Nat) : n.bitIndices.map (base + ·) =
    if n % 2 = 1 then base :: (n / 2).bitIndices.map (base + 1 + ·)
    else (n / 2).bitIndices.map (base + 1 + ·) := by
  have hmap (k : Nat) : (k.bitIndices.map (· + 1)).map (base + ·) =
      k.bitIndices.map (base + 1 + ·) := by
    rw [List.map_map]
    exact List.map_congr_left fun i _ => show base + (i + 1) = base + 1 + i by omega
  split
  · next hodd =>
    have hn : n = 2 * (n / 2) + 1 := by omega
    rw [hn, Nat.bitIndices_two_mul_add_one, ← hn, List.map_cons, hmap, Nat.add_zero]
  · next heven =>
    have hn : n = 2 * (n / 2) := by omega
    rw [hn, Nat.bitIndices_two_mul, ← hn, hmap]

/-- The bits of an odd entry are the words of its window. -/
theorem relocateBits_eq (entry : Addr c) (base : Nat) (m : Words c) :
    relocateBits loadBias entry (address c base) m =
      applyAll loadBias (ofBitmap base entry.toNat) m := by
  induction hx : entry.toNat using Nat.strong_induction_on generalizing entry base m with
  | _ x ih =>
    subst hx
    rw [relocateBits]
    split
    · next hzero =>
      have hbits : ofBitmap base (0 : Addr c).toNat = [] := by simp [ofBitmap]
      rw [hzero, hbits]
      rfl
    · next hne =>
      have hhalf : (entry >>> 1).toNat = entry.toNat / 2 := by
        rw [BitVec.toNat_ushiftRight, Nat.shiftRight_one]
      have hbit : (entry >>> 1).getLsbD 0 = decide (entry.toNat / 2 % 2 = 1) := by
        rw [BitVec.getLsbD, hhalf, Nat.testBit_zero]
      have hrest (m : Words c) := ih _ (shiftRight_lt hne) (entry >>> 1) (base + 1) m rfl
      simp only [hbit, address_succ, hrest, hhalf, ofBitmap]
      rw [map_bitIndices (entry.toNat / 2)]
      split <;> simp_all [applyAll_cons]

/-- **The loop over the entries** relocates the words that the table stands for. -/
theorem relocateEntries_eq {es : List Nat} (hes : Entries c es) (base : Nat) (m : Words c) :
    relocateEntries loadBias (es.map (BitVec.ofNat _)) (address c base) m =
      applyAll loadBias (words c base es) m := by
  induction es generalizing base m with
  | nil => rfl
  | cons e es ih =>
    obtain ⟨⟨hlt, haddress⟩, hes⟩ := List.forall_mem_cons.mp hes
    have htoNat : (BitVec.ofNat (8 * c.word) e).toNat = e := Nat.mod_eq_of_lt hlt
    have hbit : (BitVec.ofNat (8 * c.word) e).getLsbD 0 = decide (e % 2 = 1) := by
      rw [BitVec.getLsbD, htoNat, Nat.testBit_zero]
    rw [List.map_cons, relocateEntries, words, hbit]
    by_cases heven : e % 2 = 0
    · have he : BitVec.ofNat (8 * c.word) e = address c (e / c.word) := by
        rw [address, Nat.div_mul_cancel (haddress heven)]
      rw [if_pos heven, if_pos (by simp [heven]), he, address_succ]
      exact congrArg _ (funext fun m' => ih hes _ m')
    · rw [if_neg heven, if_neg (by simpa using heven), relocateBits_eq, htoNat,
        applyAll_append]
      refine congrArg _ (funext fun m' => ?_)
      rw [address_add]
      exact ih hes _ m'

/-! ## What a table relocates -/

theorem address_aligned (k : Nat) : (address c k).toNat % c.word = 0 := by
  rw [address, BitVec.toNat_ofNat]
  refine Nat.mod_eq_zero_of_dvd ((Nat.dvd_mod_iff ?_).mpr (Nat.dvd_mul_left _ k))
  cases c <;> decide

/-- The sum of two multiples of the size of a word is one, also when it does not fit. -/
theorem add_aligned {a b : Addr c} (ha : a.toNat % c.word = 0) (hb : b.toNat % c.word = 0) :
    (a + b).toNat % c.word = 0 := by
  rw [BitVec.toNat_add]
  refine Nat.mod_eq_zero_of_dvd ((Nat.dvd_mod_iff ?_).mpr ?_)
  · cases c <;> decide
  · exact (Nat.dvd_add (Nat.dvd_of_mod_eq_zero ha) (Nat.dvd_of_mod_eq_zero hb))

theorem applyRelrReloc_eq (hbias : loadBias.toNat % c.word = 0) (k : Nat) (m : Words c) :
    applyRelrReloc loadBias (address c k) m = some (Function.update m (address c k + loadBias)
      (m (address c k + loadBias) + loadBias)) :=
  if_pos (add_aligned (address_aligned k) hbias)

/-- A table relocates the words that it was made from, one after the other. -/
theorem relocateRelr_eq_applyAll {ks : List Nat} (hks : ks.SortedLT)
    (hfit : ∀ k ∈ ks, k * c.word < 2 ^ (8 * c.word)) (m : Words c) :
    relocateRelr loadBias ((encode c ks).map (BitVec.ofNat _)) m = applyAll loadBias ks m := by
  have hbase : (0 : Addr c) = address c 0 := by rw [address, Nat.zero_mul]; rfl
  rw [relocateRelr, hbase, relocateEntries_eq (entries_encode hks hfit), words_encode hks]

end Relr
end McpeLauncher.Linker
