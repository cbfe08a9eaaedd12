import Mathlib.Data.Nat.BitIndices
import McpeLauncher.Lib.Elf

/-!
# Tables of relative relocations

The `SHT_RELR` format of ELF. The words to relocate ascend. An even entry is the address of one; an
odd entry has a bit for each of the next words, one word fewer than the entry has bits. Words are
counted from the address `0`, so that the address of the word `k` is `k` times the size of a word.
-/

namespace Elf.Relr

variable (c : ElfClass)

/-- The number of words that an odd entry is about. -/
def window : Nat := 8 * c.word - 1

/-! ## Entries to words -/

/-- The words out of the window that begins at the word `base`. -/
def ofBitmap (base entry : Nat) : List Nat := (entry / 2).bitIndices.map (base + ·)

/-- The words of a table, with the window behind its last entry. -/
def words : Nat → List Nat → List Nat
  | _, [] => []
  | base, entry :: entries =>
    if entry % 2 = 0 then entry / c.word :: words (entry / c.word + 1) entries
    else ofBitmap base entry ++ words (base + window c) entries

/-- The entries are words of the file, and the even ones are addresses of words. -/
def Entries (entries : List Nat) : Prop :=
  ∀ e ∈ entries, e < 2 ^ (8 * c.word) ∧ (e % 2 = 0 → c.word ∣ e)

/-! ## Words to entries -/

/-- The entry for words out of the window that begins at the word `base`. -/
def bitmap (base : Nat) (ks : List Nat) : Nat :=
  2 * ((ks.map (· - base)).map (2 ^ ·)).sum + 1

theorem length_dropWhile_lt {n k : Nat} {ks : List Nat} (hk : ¬n ≤ k) :
    ((k :: ks).dropWhile (· < n)).length < (k :: ks).length := by
  rw [List.dropWhile_cons, if_pos (decide_eq_true (Nat.lt_of_not_le hk))]
  exact Nat.lt_succ_of_le (List.dropWhile_sublist _).length_le

mutual
/-- The entries for ascending words, the first one by its address. -/
def encode : List Nat → List Nat
  | [] => []
  | k :: ks => k * c.word :: encodeBehind (k + 1) ks
termination_by ks => (ks.length, 0)

/-- The entries for words behind an entry, with the window that begins at the word `base`. -/
def encodeBehind (base : Nat) : List Nat → List Nat
  | [] => []
  | k :: ks =>
    if _ : base + window c ≤ k then encode (k :: ks)
    else
      bitmap base ((k :: ks).takeWhile (· < base + window c)) ::
        encodeBehind (base + window c) ((k :: ks).dropWhile (· < base + window c))
termination_by ks => (ks.length, 1)
decreasing_by
  · exact Prod.Lex.right _ Nat.zero_lt_one
  · exact Prod.Lex.left _ _ (length_dropWhile_lt ‹_›)
end

/-! ## Round trip -/

variable {c} {base : Nat} {ks : List Nat}

theorem sortedLT_map_sub (h : ks.SortedLT) (hbase : ∀ k ∈ ks, base ≤ k) :
    (ks.map (· - base)).SortedLT := by
  refine (List.pairwise_map.mpr ?_).sortedLT
  refine h.pairwise.imp_of_mem fun {a b} ha _ hab => ?_
  have hle := hbase a ha
  omega

/-- A window gives back its words. -/
theorem ofBitmap_bitmap (h : ks.SortedLT) (hbase : ∀ k ∈ ks, base ≤ k) :
    ofBitmap base (bitmap base ks) = ks := by
  have hhalf : bitmap base ks / 2 = ((ks.map (· - base)).map (2 ^ ·)).sum := by
    rw [bitmap]
    omega
  rw [ofBitmap, hhalf, Nat.bitIndices_sum_map_two_pow (sortedLT_map_sub h hbase), List.map_map]
  exact (List.map_congr_left fun k hk => Nat.add_sub_cancel' (hbase k hk)).trans ks.map_id

theorem bitmap_odd (base : Nat) (ks : List Nat) : bitmap base ks % 2 = 1 := by
  rw [bitmap]
  omega

theorem address_even (c : ElfClass) (k : Nat) : k * c.word % 2 = 0 := by
  cases c <;> simp only [ElfClass.word] <;> omega

theorem word_pos (c : ElfClass) : 0 < c.word := by
  cases c <;> decide

theorem le_of_mem_dropWhile {n : Nat} (h : ks.SortedLT) {k : Nat}
    (hk : k ∈ ks.dropWhile (· < n)) : n ≤ k := by
  induction ks with
  | nil => cases hk
  | cons j ks ih =>
    obtain ⟨hlt, hks⟩ := List.pairwise_cons.mp h.pairwise
    rw [List.dropWhile_cons] at hk
    split at hk
    · exact ih hks.sortedLT hk
    · next hj =>
      have hn : n ≤ j := Nat.le_of_not_lt fun hjn => hj (decide_eq_true hjn)
      rcases List.mem_cons.mp hk with rfl | hmem
      · exact hn
      · exact hn.trans (hlt k hmem).le

/-- What stands behind an entry is read back, whatever the window of that entry has. -/
theorem words_encodeBehind (h : ks.SortedLT) (hbase : ∀ k ∈ ks, base ≤ k) :
    words c base (encodeBehind c base ks) = ks := by
  induction hn : ks.length using Nat.strong_induction_on generalizing base ks with
  | _ n ih =>
    subst hn
    cases ks with
    | nil => rw [encodeBehind, words]
    | cons k ks =>
      rw [encodeBehind]
      split
      · obtain ⟨hlt, hks⟩ := List.pairwise_cons.mp h.pairwise
        rw [encode, words, if_pos (address_even c k), Nat.mul_div_cancel k (word_pos c),
          ih ks.length (Nat.lt_succ_self _) hks.sortedLT hlt rfl]
      · next hnear =>
        have hfront := List.takeWhile_sublist (l := k :: ks) (· < base + window c)
        have hback := List.dropWhile_sublist (l := k :: ks) (· < base + window c)
        have hrest := ih _ (length_dropWhile_lt hnear) (h.pairwise.sublist hback).sortedLT
          (fun j hj => le_of_mem_dropWhile h hj) rfl
        rw [words, if_neg (by rw [bitmap_odd]; decide), hrest,
          ofBitmap_bitmap (h.pairwise.sublist hfront).sortedLT fun j hj => hbase j (hfront.subset hj),
          List.takeWhile_append_dropWhile]

/-- **Round trip**: a table is read back as the words that it was made for. -/
theorem words_encode (h : ks.SortedLT) (base : Nat) : words c base (encode c ks) = ks := by
  cases ks with
  | nil => rw [encode, words]
  | cons k ks =>
    obtain ⟨hlt, hks⟩ := List.pairwise_cons.mp h.pairwise
    rw [encode, words, if_pos (address_even c k), Nat.mul_div_cancel k (word_pos c),
      words_encodeBehind hks.sortedLT hlt]

/-! ## The entries fit -/

theorem sum_lt {n : Nat} (h : ks.SortedLT) (hlt : ∀ k ∈ ks, k < n) :
    (ks.map (2 ^ ·)).sum < 2 ^ n := by
  refine Nat.lt_pow_two_of_testBit _ fun i hi => ?_
  by_contra hbit
  rw [Bool.not_eq_false, ← Nat.mem_bitIndices, Nat.bitIndices_sum_map_two_pow h] at hbit
  exact absurd (hlt i hbit) (Nat.not_lt.mpr hi)

theorem two_mul_two_pow_window (c : ElfClass) : 2 * 2 ^ window c = 2 ^ (8 * c.word) := by
  cases c <;> rfl

theorem bitmap_lt (h : ks.SortedLT) (hbase : ∀ k ∈ ks, base ≤ k)
    (hlt : ∀ k ∈ ks, k < base + window c) : bitmap base ks < 2 ^ (8 * c.word) := by
  have hsum := sum_lt (n := window c) (sortedLT_map_sub h hbase) <| by
    intro i hi
    obtain ⟨k, hk, rfl⟩ := List.mem_map.mp hi
    have hle := hbase k hk
    have hk := hlt k hk
    omega
  rw [bitmap, ← two_mul_two_pow_window]
  omega

theorem address_entry {k : Nat} (hk : k * c.word < 2 ^ (8 * c.word)) :
    k * c.word < 2 ^ (8 * c.word) ∧ (k * c.word % 2 = 0 → c.word ∣ k * c.word) :=
  ⟨hk, fun _ => Nat.dvd_mul_left _ _⟩

theorem entries_encodeBehind (h : ks.SortedLT) (hbase : ∀ k ∈ ks, base ≤ k)
    (hfit : ∀ k ∈ ks, k * c.word < 2 ^ (8 * c.word)) : Entries c (encodeBehind c base ks) := by
  induction hn : ks.length using Nat.strong_induction_on generalizing base ks with
  | _ n ih =>
    subst hn
    cases ks with
    | nil => rw [encodeBehind]; exact List.forall_mem_nil _
    | cons k ks =>
      rw [encodeBehind]
      split
      · obtain ⟨hlt, hks⟩ := List.pairwise_cons.mp h.pairwise
        rw [encode]
        exact List.forall_mem_cons.mpr ⟨address_entry (hfit k (.head _)),
          ih ks.length (Nat.lt_succ_self _) hks.sortedLT hlt (fun j hj => hfit j (.tail _ hj)) rfl⟩
      · next hnear =>
        have hfront := List.takeWhile_sublist (l := k :: ks) (· < base + window c)
        have hback := List.dropWhile_sublist (l := k :: ks) (· < base + window c)
        refine List.forall_mem_cons.mpr ⟨⟨?_, fun heven => ?_⟩, ?_⟩
        · exact bitmap_lt (h.pairwise.sublist hfront).sortedLT
            (fun j hj => hbase j (hfront.subset hj))
            fun j hj => of_decide_eq_true (List.all_eq_true.mp List.all_takeWhile j hj)
        · rw [bitmap_odd] at heven
          cases heven
        · exact ih _ (length_dropWhile_lt hnear) (h.pairwise.sublist hback).sortedLT
            (fun j hj => le_of_mem_dropWhile h hj) (fun j hj => hfit j (hback.subset hj)) rfl

theorem entries_encode (h : ks.SortedLT) (hfit : ∀ k ∈ ks, k * c.word < 2 ^ (8 * c.word)) :
    Entries c (encode c ks) := by
  cases ks with
  | nil => rw [encode]; exact List.forall_mem_nil _
  | cons k ks =>
    obtain ⟨hlt, hks⟩ := List.pairwise_cons.mp h.pairwise
    rw [encode]
    exact List.forall_mem_cons.mpr ⟨address_entry (hfit k (.head _)),
      entries_encodeBehind hks.sortedLT hlt fun j hj => hfit j (.tail _ hj)⟩

end Elf.Relr
