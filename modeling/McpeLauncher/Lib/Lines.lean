import Mathlib.Data.List.Basic

/-!
# Newline-terminated records in a byte string

A byte string is cut into its complete lines; what follows the last newline is not a line and is
dropped (`lines`). The lemmas say how cutting interacts with concatenation, with taking a front
part of the string, and with a `memchr` scan.
-/

namespace ByteLines

abbrev Bytes := List UInt8

variable {bs l : Bytes} {ls : List Bytes}

def newline : UInt8 := 10

/-- A line ends in a newline and contains no other. -/
def IsLine (l : Bytes) : Prop := ∃ body, newline ∉ body ∧ l = body ++ [newline]

/-- The complete lines of a byte string. -/
def lines : Bytes → List Bytes
  | [] => []
  | b :: bs =>
    if b = newline then [newline] :: lines bs
    else match lines bs with
      | [] => []
      | l :: ls => (b :: l) :: ls

/-- The length of the front part of a byte string up to its last newline. -/
def completeLength (bs : Bytes) : Nat := (lines bs).flatten.length

theorem IsLine.length_pos (h : IsLine l) : 0 < l.length := by
  obtain ⟨body, _, rfl⟩ := h
  simp

@[simp] theorem lines_nil : lines [] = [] := rfl

theorem lines_cons (b : UInt8) (bs : Bytes) :
    lines (b :: bs) =
      if b = newline then [newline] :: lines bs
      else match lines bs with
        | [] => []
        | l :: ls => (b :: l) :: ls := rfl

theorem lines_eq_nil_iff : lines bs = [] ↔ newline ∉ bs := by
  induction bs with
  | nil => simp
  | cons b bs ih =>
    simp only [lines_cons]
    split
    · next h => simp [h]
    · next h =>
      cases hl : lines bs with
      | nil => simpa [Ne.symm h] using ih.mp hl
      | cons l ls =>
        have : newline ∈ bs := by
          by_contra hn
          simp [ih.mpr hn] at hl
        simp [this]

theorem lines_append_of_isLine (h : IsLine l) : lines (l ++ bs) = l :: lines bs := by
  obtain ⟨body, hbody, rfl⟩ := h
  induction body with
  | nil => simp [lines_cons]
  | cons b body ih =>
    simp only [List.mem_cons, not_or] at hbody
    have hb : b ≠ newline := Ne.symm hbody.1
    have := ih hbody.2
    simp only [List.append_assoc, List.cons_append, List.nil_append] at this
    simp [lines_cons, hb, this]

/-- Cutting undoes the concatenation of lines. -/
theorem lines_flatten_append (h : ∀ l ∈ ls, IsLine l) (bs : Bytes) :
    lines (ls.flatten ++ bs) = ls ++ lines bs := by
  induction ls with
  | nil => rfl
  | cons l ls ih =>
    rw [List.flatten_cons, List.append_assoc,
      lines_append_of_isLine (h l List.mem_cons_self), ih fun l hl => h l (List.mem_cons_of_mem _ hl)]
    rfl

theorem lines_flatten (h : ∀ l ∈ ls, IsLine l) : lines ls.flatten = ls := by
  simpa using lines_flatten_append h []

theorem isLine_of_mem_lines (h : l ∈ lines bs) : IsLine l := by
  induction bs generalizing l with
  | nil => exact absurd h List.not_mem_nil
  | cons b bs ih =>
    simp only [lines_cons] at h
    split at h
    · rcases List.mem_cons.mp h with rfl | h
      · exact ⟨[], List.not_mem_nil, rfl⟩
      · exact ih h
    · next hb =>
      cases hl : lines bs with
      | nil =>
        rw [hl] at h
        exact absurd h List.not_mem_nil
      | cons l' ls =>
        simp only [hl] at h ih
        rcases List.mem_cons.mp h with rfl | h
        · obtain ⟨body, hbody, rfl⟩ := ih List.mem_cons_self
          exact ⟨b :: body, by simp [Ne.symm hb, hbody], rfl⟩
        · exact ih (List.mem_cons_of_mem _ h)

/-- A front part of a byte string has a front part of its lines. -/
theorem lines_append_prefix (as bs : Bytes) : lines as <+: lines (as ++ bs) := by
  induction as with
  | nil => simp
  | cons a as ih =>
    simp only [List.cons_append, lines_cons]
    split
    · exact (List.cons_prefix_cons).mpr ⟨rfl, ih⟩
    · cases hl : lines as with
      | nil => exact List.nil_prefix
      | cons l ls =>
        rw [hl] at ih
        obtain ⟨t, ht⟩ := ih
        rw [← ht]
        exact ⟨t, rfl⟩

theorem lines_take_prefix (bs : Bytes) (n : Nat) : lines (bs.take n) <+: lines bs := by
  have := lines_append_prefix (bs.take n) (bs.drop n)
  rwa [List.take_append_drop] at this

theorem prefix_of_flatten_lines (bs : Bytes) : (lines bs).flatten <+: bs := by
  induction bs with
  | nil => simp
  | cons b bs ih =>
    simp only [lines_cons]
    split
    · next h => subst h; simpa using ih
    · cases hl : lines bs with
      | nil => exact List.nil_prefix
      | cons l ls => rw [hl] at ih; simpa using ih

/-! ## Front parts of a list of lines -/

theorem take_flatten_take (ls : List Bytes) (k : Nat) :
    ls.flatten.take (ls.take k).flatten.length = (ls.take k).flatten := by
  conv_lhs => rw [← List.take_append_drop k ls, List.flatten_append]
  simp

theorem drop_flatten_take (ls : List Bytes) (k : Nat) :
    ls.flatten.drop (ls.take k).flatten.length = (ls.drop k).flatten := by
  conv_lhs => rw [← List.take_append_drop k ls, List.flatten_append]
  simp

theorem flatten_eq_nil_iff (h : ∀ l ∈ ls, IsLine l) : ls.flatten = [] ↔ ls = [] := by
  cases ls with
  | nil => simp
  | cons l ls =>
    have := (h l List.mem_cons_self).length_pos
    simp only [List.flatten_cons, List.append_eq_nil_iff, reduceCtorEq, iff_false, not_and]
    rintro rfl
    simp at this

/-- The first `k` lines are shorter than all of them, unless `k` is their number. -/
theorem flatten_take_length_eq_iff (h : ∀ l ∈ ls, IsLine l) (hk : k ≤ ls.length) :
    ls.flatten.length = (ls.take k).flatten.length ↔ k = ls.length := by
  have hrest : ∀ l ∈ ls.drop k, IsLine l := fun l hl => h l (List.mem_of_mem_drop hl)
  have hlen : ls.flatten.length = (ls.take k).flatten.length + (ls.drop k).flatten.length := by
    rw [← List.length_append, ← List.flatten_append, List.take_append_drop]
  constructor
  · intro heq
    have hnil := (flatten_eq_nil_iff hrest).mp (List.eq_nil_of_length_eq_zero (by omega))
    have := List.drop_eq_nil_iff.mp hnil
    omega
  · rintro rfl
    simp

/-- The complete lines within the first `n` bytes of some lines are the first few of them. -/
theorem lines_take_flatten (h : ∀ l ∈ ls, IsLine l) (n : Nat) :
    ∃ k ≤ ls.length, lines (ls.flatten.take n) = ls.take k := by
  have hpre := lines_take_prefix ls.flatten n
  rw [lines_flatten h] at hpre
  exact ⟨_, hpre.length_le, List.prefix_iff_eq_take.mp hpre⟩

/-- They are the first `k` of them, where `j` lines fit into `n` bytes exactly if `j` is at most
`k`. -/
theorem flatten_take_length_le_iff (h : ∀ l ∈ ls, IsLine l)
    (hlines : lines (ls.flatten.take n) = ls.take k) (hk : k ≤ ls.length) (hj : j ≤ ls.length) :
    (ls.take j).flatten.length ≤ n ↔ j ≤ k := by
  constructor
  · intro hfit
    have hline : ∀ l ∈ ls.take j, IsLine l := fun l hl => h l (List.mem_of_mem_take hl)
    have hwindow : ls.flatten.take n = (ls.take j).flatten ++
        (ls.flatten.take n).drop (ls.take j).flatten.length := by
      conv_lhs => rw [← List.take_append_drop (ls.take j).flatten.length (ls.flatten.take n)]
      rw [List.take_take, Nat.min_eq_left hfit, take_flatten_take]
    rw [hwindow, lines_flatten_append hline] at hlines
    have hlen := congrArg List.length hlines
    rw [List.length_append, List.length_take_of_le hj, List.length_take_of_le hk] at hlen
    omega
  · intro hle
    have hpre := (prefix_of_flatten_lines (ls.flatten.take n)).length_le
    have hsplit : ls.take k = ls.take j ++ (ls.take k).drop j := by
      conv_lhs => rw [← List.take_append_drop j (ls.take k)]
      rw [List.take_take, Nat.min_eq_left hle]
    rw [hlines, hsplit, List.flatten_append, List.length_append, List.length_take] at hpre
    omega

theorem lines_length_eq_count (bs : Bytes) : (lines bs).length = bs.count newline := by
  induction bs with
  | nil => rfl
  | cons b bs ih =>
    simp only [lines_cons]
    split
    · next h => simp [ih, h]
    · next h =>
      rw [List.count_cons_of_ne h, ← ih]
      cases lines bs <;> rfl

/-! ## The end of the last line -/

theorem completeLength_eq_zero (h : newline ∉ bs) : completeLength bs = 0 := by
  simp [completeLength, lines_eq_nil_iff.mpr h]

theorem completeLength_cons (b : UInt8) (bs : Bytes) :
    completeLength (b :: bs) = if newline ∈ b :: bs then 1 + completeLength bs else 0 := by
  split
  · next h =>
    simp only [completeLength, lines_cons]
    split
    · simp [Nat.add_comm]
    · next hb =>
      have hmem : newline ∈ bs := by simpa [Ne.symm hb] using h
      cases hl : lines bs with
      | nil => exact absurd hmem (lines_eq_nil_iff.mp hl)
      | cons l ls => simp; omega
  · next h => exact completeLength_eq_zero h

/-- The last newline of a concatenation is in its second part, if that has one. -/
theorem completeLength_append (as bs : Bytes) :
    completeLength (as ++ bs) =
      if newline ∈ bs then as.length + completeLength bs else completeLength as := by
  induction as with
  | nil =>
    split
    · simp
    · next h => exact completeLength_eq_zero h
  | cons a as ih =>
    rw [List.cons_append, completeLength_cons, ih, completeLength_cons]
    by_cases hb : newline ∈ bs
    · simp [hb]; omega
    · simp [hb]

/-! ## Scanning with memchr -/

/-- The index of the first newline. -/
def memchr (bs : Bytes) : Option Nat := bs.findIdx? (· = newline)

theorem memchr_none (h : memchr bs = none) : lines bs = [] := by
  rw [lines_eq_nil_iff]
  intro hm
  simpa using List.findIdx?_eq_none_iff.mp h _ hm

/-- A hit of `memchr` ends the first line. -/
theorem memchr_some (h : memchr bs = some i) :
    IsLine (bs.take (i + 1)) ∧ i < bs.length ∧
      lines bs = bs.take (i + 1) :: lines (bs.drop (i + 1)) := by
  obtain ⟨hi, hnl, hbefore⟩ := List.findIdx?_eq_some_iff_getElem.mp h
  have hline : IsLine (bs.take (i + 1)) := by
    refine ⟨bs.take i, ?_, ?_⟩
    · intro hm
      obtain ⟨j, hj, hjv⟩ := List.mem_take_iff_getElem.mp hm
      have := hbefore j (by omega)
      simp [hjv] at this
    · rw [List.take_succ_eq_append_getElem hi]
      simp only [decide_eq_true_eq] at hnl
      rw [hnl]
  refine ⟨hline, hi, ?_⟩
  rw [← lines_append_of_isLine hline, List.take_append_drop]

/-- The scan `while ((p = memchr(p, '\n', …))) { p++; if (++hits == limit) break; }`: how far `p`
gets, and the number of hits. -/
def memchrLoop : (limit : Nat) → Bytes → Nat × Nat
  | 0, _ => (0, 0)
  | limit + 1, bs =>
    match memchr bs with
    | none => (0, 0)
    | some i =>
      let (n, hits) := memchrLoop limit (bs.drop (i + 1))
      (i + 1 + n, hits + 1)

/-- The scan passes over the first `limit` lines. -/
theorem memchrLoop_eq (limit : Nat) (bs : Bytes) :
    memchrLoop limit bs =
      (((lines bs).take limit).flatten.length, ((lines bs).take limit).length) := by
  induction limit generalizing bs with
  | zero => rfl
  | succ limit ih =>
    simp only [memchrLoop]
    cases hm : memchr bs with
    | none => simp [memchr_none hm]
    | some i =>
      obtain ⟨_, hi, hl⟩ := memchr_some hm
      simp only [hl, ih, List.take_succ_cons, List.flatten_cons, List.length_append, List.length_take,
        List.length_cons, Prod.mk.injEq, and_true]
      omega

end ByteLines
