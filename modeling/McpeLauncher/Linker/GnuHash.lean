import McpeLauncher.Linker.SymbolLookup

/-!
# GNU hash tables

What a linker writes: the symbols of a bucket stand together, each with its hash in the chain, and
the lowest bit of a chain word ends the bucket. With such a table `gnu_lookup` gives what a search
through all symbols gives.
-/

namespace McpeLauncher.Linker.SoInfo
open Elf

variable {c : ElfClass}

/-- The hash table of the symbols from `symoffset` to `n`, with their names. -/
structure WellFormed (si : SoInfo c) (symoffset n : Nat) (names : Nat → Name) : Prop where
  symoffset_pos : 0 < symoffset
  size : n ≤ maxSymbols
  nbucket : 0 < si.gnuNbucket
  getString : ∀ i, symoffset ≤ i → i < n → si.getString (si.symtab i).stName = some (names i)
  bloom : ∀ i, symoffset ≤ i → i < n → si.bloomTest (calculateGnuHash (names i)) = true
  /-- A bucket has the number of its first symbol, or none. -/
  bucket : ∀ b < si.gnuNbucket,
    (si.gnuBucket b = 0 ∧ ∀ i, symoffset ≤ i → i < n →
      (calculateGnuHash (names i)).toNat % si.gnuNbucket ≠ b) ∨
    (symoffset ≤ si.gnuBucket b ∧ si.gnuBucket b < n ∧
      (calculateGnuHash (names (si.gnuBucket b))).toNat % si.gnuNbucket = b ∧
      ∀ i, symoffset ≤ i → i < si.gnuBucket b →
        (calculateGnuHash (names i)).toNat % si.gnuNbucket ≠ b)
  /-- The symbols are in the order of their buckets. -/
  together : ∀ i j k, symoffset ≤ i → i ≤ j → j ≤ k → k < n →
    (calculateGnuHash (names i)).toNat % si.gnuNbucket =
      (calculateGnuHash (names k)).toNat % si.gnuNbucket →
    (calculateGnuHash (names j)).toNat % si.gnuNbucket =
      (calculateGnuHash (names k)).toNat % si.gnuNbucket
  chain : ∀ i, symoffset ≤ i → i < n → si.gnuChain i >>> 1 = calculateGnuHash (names i) >>> 1
  last : ∀ i, symoffset ≤ i → i < n → (si.gnuChain i &&& 1 = 0 ↔ i + 1 < n ∧
    (calculateGnuHash (names (i + 1))).toNat % si.gnuNbucket =
      (calculateGnuHash (names i)).toNat % si.gnuNbucket)

/-- The symbol `i` is a definition of the name in that version. -/
def defines (si : SoInfo c) (names : Nat → Name) (name : Name) (version : BitVec 16) (i : Nat) :
    Bool :=
  checkSymbolVersion si.versym i version && names i = name &&
    isSymbolGlobalAndDefined (si.symtab i)

namespace WellFormed

variable {si : SoInfo c} {symoffset n : Nat} {names : Nat → Name} {name : Name}
  {version : BitVec 16} {m : Nat}

theorem isSymbol_eq (h : si.WellFormed symoffset n names) (hm : symoffset ≤ m) (hn : m < n) :
    si.isSymbol name version m = some (si.defines names name version m) := by
  rw [isSymbol, defines]
  cases checkSymbolVersion si.versym m version with
  | false => rfl
  | true =>
    rw [if_pos rfl, h.getString m hm hn]
    simp

/-- A symbol whose hash does not fit has another name. -/
theorem defines_of_not_fits (h : si.WellFormed symoffset n names) (hm : symoffset ≤ m) (hn : m < n)
    (hfits : ¬(si.gnuChain m ^^^ calculateGnuHash name) >>> 1 = 0) :
    si.defines names name version m = false := by
  rw [hash_fits_iff, h.chain m hm hn] at hfits
  have hne : names m ≠ name := fun heq => hfits (heq ▸ rfl)
  rw [defines, decide_eq_false hne, Bool.and_false, Bool.false_and]

/-- In other buckets the name is not defined. -/
theorem defines_of_other_bucket
    (hbucket : (calculateGnuHash (names m)).toNat % si.gnuNbucket ≠
      (calculateGnuHash name).toNat % si.gnuNbucket) :
    si.defines names name version m = false := by
  have hne : names m ≠ name := fun heq => hbucket (heq ▸ rfl)
  rw [defines, decide_eq_false hne, Bool.and_false, Bool.false_and]

theorem find?_range' {p : Nat → Bool} {start len : Nat}
    (hp : ∀ i, start ≤ i → i < start + len → p i = false) :
    (List.range' start len).find? p = none := by
  rw [List.find?_eq_none]
  intro i hi
  obtain ⟨hstart, hend⟩ := List.mem_range'_1.mp hi
  rw [hp i hstart hend]
  exact Bool.false_ne_true

/-- **The loop over a chain** is the search from there on. -/
theorem gnuChainLoop_eq (h : si.WellFormed symoffset n names) (hm : symoffset ≤ m) (hn : m < n)
    (hbucket : (calculateGnuHash (names m)).toNat % si.gnuNbucket =
      (calculateGnuHash name).toNat % si.gnuNbucket) {fuel : Nat} (hfuel : n - m ≤ fuel) :
    si.gnuChainLoop name (calculateGnuHash name) version fuel m =
      some ((List.range' m (n - m)).find? (si.defines names name version)) := by
  induction fuel generalizing m with
  | zero => omega
  | succ fuel ih =>
    have hlen : n - m = n - (m + 1) + 1 := by omega
    have htest : si.gnuIsSymbol name (calculateGnuHash name) version m =
        some (si.defines names name version m) := by
      rw [gnuIsSymbol]
      split
      · exact h.isSymbol_eq hm hn
      · next hfits => rw [h.defines_of_not_fits hm hn hfits]
    rw [gnuChainLoop, hlen, List.range'_succ, List.find?_cons]
    simp only [htest, Option.bind_eq_bind, Option.bind_some]
    cases hdefines : si.defines names name version m with
    | true => rfl
    | false =>
      simp only [Bool.false_eq_true, if_false]
      split
      · next hnext =>
        obtain ⟨hlt, hsame⟩ := (h.last m hm hn).mp hnext
        exact ih (hm.trans (Nat.le_succ m)) hlt (hsame.trans hbucket) (by omega)
      · next hstop =>
        -- behind the last symbol of the bucket there is none of it
        have hrest : ∀ i, m + 1 ≤ i → i < m + 1 + (n - (m + 1)) →
            si.defines names name version i = false := by
          intro i hi hlt
          refine defines_of_other_bucket fun heq => hstop ((h.last m hm hn).mpr ⟨by omega, ?_⟩)
          have hsame := h.together m (m + 1) i hm (Nat.le_succ m) hi (by omega)
            (hbucket.trans heq.symm)
          exact hsame.trans (heq.trans hbucket.symm)
        rw [find?_range' hrest]
        rfl

/-- **`gnu_lookup` finds** the first symbol of the table that is a definition of the name. -/
theorem gnuLookup_eq (h : si.WellFormed symoffset n names) {vi : Option VersionInfo}
    (hversion : si.findVerdefVersionIndex vi = some version) (name : Name) :
    si.gnuLookup name vi = some
      ((List.range' symoffset (n - symoffset)).find? (si.defines names name version)) := by
  have hnone (hp : ∀ i, symoffset ≤ i → i < n → si.defines names name version i = false) :
      (List.range' symoffset (n - symoffset)).find? (si.defines names name version) = none :=
    find?_range' fun i hi hlt => hp i hi (by omega)
  rw [gnuLookup]
  split
  · rcases h.bucket _ (Nat.mod_lt (calculateGnuHash name).toNat h.nbucket) with
      ⟨hzero, hall⟩ | ⟨hstart, hlt, hfirst, hall⟩
    · rw [if_pos hzero, hnone fun i hi hlt => defines_of_other_bucket (hall i hi hlt)]
    · generalize si.gnuBucket ((calculateGnuHash name).toNat % si.gnuNbucket) = first at *
      have hsplit : List.range' symoffset (first - symoffset) ++ List.range' first (n - first) =
          List.range' symoffset (n - symoffset) := by
        have hlen : first - symoffset + (n - first) = n - symoffset := by omega
        have happend :=
          List.range'_append_1 (s := symoffset) (m := first - symoffset) (n := n - first)
        rwa [Nat.add_sub_cancel' hstart, hlen] at happend
      have hbefore : (List.range' symoffset (first - symoffset)).find?
          (si.defines names name version) = none :=
        find?_range' fun i hi hlt => defines_of_other_bucket (hall i hi (by omega))
      rw [if_neg (by have := h.symoffset_pos; omega), hversion, Option.bind_eq_bind,
        Option.bind_some, h.gnuChainLoop_eq hstart hlt hfirst (by have := h.size; omega), ← hsplit,
        List.find?_append, hbefore, Option.none_or]
  · next hbloom =>
    refine congrArg some (hnone fun i hi hlt => ?_).symm
    have hne : names i ≠ name := fun heq => hbloom (heq ▸ h.bloom i hi hlt)
    rw [defines, decide_eq_false hne, Bool.and_false, Bool.false_and]

end WellFormed

theorem oneSymbolLib_wellFormed : oneSymbolLib.WellFormed 1 2 fun _ => [102] where
  symoffset_pos := Nat.one_pos
  size := by decide
  nbucket := Nat.one_pos
  getString _ _ _ := rfl
  bloom _ _ _ := by decide
  bucket b hb := by
    obtain rfl := Nat.lt_one_iff.mp hb
    exact .inr ⟨Nat.le_refl 1, Nat.one_lt_two, Nat.mod_one _, fun i hi hlt =>
      absurd hlt (Nat.not_lt.mpr hi)⟩
  together _ _ _ _ _ _ _ heq := heq
  chain _ _ _ := rfl
  last i hi hlt := by
    obtain rfl : i = 1 := by omega
    exact ⟨fun h => absurd h (by decide), fun h => absurd h.1 (Nat.lt_irrefl 2)⟩

theorem gnuLookup_oneSymbolLib : oneSymbolLib.gnuLookup [102] none =
    some ([1].find? (oneSymbolLib.defines (fun _ => [102]) [102] kVersymNotNeeded)) :=
  oneSymbolLib_wellFormed.gnuLookup_eq rfl [102]

end McpeLauncher.Linker.SoInfo
