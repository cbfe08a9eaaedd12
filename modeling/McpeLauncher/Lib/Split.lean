import Mathlib.Data.List.Basic

/-!
# Splitting at the first separator

What is in front of the first occurrence of an element in a list and what is behind it, as `find` and
`substr` or `getline` give it.
-/

namespace Split

variable {α : Type _} [DecidableEq α] {b : α} {s l r : List α}

def first (b : α) : List α → Option (List α × List α)
  | [] => none
  | a :: s => if a = b then some ([], s) else (first b s).map fun p => (a :: p.1, p.2)

/-- A text without the separator is passed over. -/
theorem first_append_left (h : b ∉ l) (s : List α) :
    first b (l ++ s) = (first b s).map fun p => (l ++ p.1, p.2) := by
  induction l with
  | nil => exact Option.map_id'.symm
  | cons a l ih =>
    rw [List.mem_cons, not_or] at h
    rw [List.cons_append, first, if_neg (Ne.symm h.1), ih h.2, Option.map_map]
    rfl

theorem first_append (h : b ∉ l) (r : List α) : first b (l ++ b :: r) = some (l, r) := by
  rw [first_append_left h, first, if_pos rfl, Option.map_some, List.append_nil]

theorem first_eq_none : first b s = none ↔ b ∉ s := by
  induction s with
  | nil => simp [first]
  | cons a s ih =>
    rw [first, List.mem_cons, not_or]
    split
    · next h => simp [h]
    · next h => simp [ih, Ne.symm h]

theorem first_eq_some : first b s = some (l, r) ↔ s = l ++ b :: r ∧ b ∉ l := by
  constructor
  · intro h
    induction s generalizing l with
    | nil => cases h
    | cons a s ih =>
      rw [first] at h
      split at h
      · next hab =>
        cases h
        exact ⟨congrArg (· :: _) hab, List.not_mem_nil⟩
      · next hab =>
        obtain ⟨p, hp, h⟩ := Option.map_eq_some_iff.mp h
        cases h
        obtain ⟨rfl, hnot⟩ := ih hp
        exact ⟨rfl, by simp [hnot, Ne.symm hab]⟩
  · rintro ⟨rfl, h⟩
    exact first_append h r

theorem length_of_first (h : first b s = some (l, r)) : r.length < s.length := by
  rw [(first_eq_some.mp h).1, List.length_append, List.length_cons]
  omega

/-- `getline`: the text up to the separator or the end; none at the end. -/
def getline (b : α) (s : List α) : Option (List α × List α) :=
  if s = [] then none else some ((first b s).getD (s, []))

theorem getline_append (h : b ∉ l) (r : List α) : getline b (l ++ b :: r) = some (l, r) := by
  rw [getline, if_neg (by simp), first_append h]
  rfl

theorem length_of_getline (h : getline b s = some (l, r)) : r.length < s.length := by
  unfold getline at h
  split at h
  · cases h
  · next hs =>
    cases hf : first b s with
    | none =>
      rw [hf] at h
      cases h
      exact List.length_pos_iff.mpr hs
    | some p =>
      rw [hf] at h
      cases h
      exact length_of_first hf

/-- What `getline` gives, again and again. -/
def lines (b : α) (s : List α) : List (List α) :=
  match _h : getline b s with
  | none => []
  | some (l, r) => l :: lines b r
termination_by s.length
decreasing_by exact length_of_getline _h

theorem lines_eq (b : α) (s : List α) : lines b s =
    match getline b s with
    | none => []
    | some (l, r) => l :: lines b r := by
  rw [lines]
  split <;> simp only [*]

theorem lines_nil : lines b [] = [] := by
  rw [lines_eq]
  rfl

theorem lines_append (h : b ∉ l) (r : List α) : lines b (l ++ b :: r) = l :: lines b r := by
  rw [lines_eq, getline_append h]

theorem lines_of_not_mem (hs : s ≠ []) (h : b ∉ s) : lines b s = [s] := by
  rw [lines_eq, getline, if_neg hs, first_eq_none.mpr h]
  exact congrArg _ lines_nil

theorem not_mem_of_mem_lines (h : l ∈ lines b s) : b ∉ l := by
  fun_induction lines b s with
  | case1 => cases h
  | case2 s l' r hline ih =>
    obtain rfl | h := List.mem_cons.mp h
    · unfold getline at hline
      split at hline
      · cases hline
      · cases hfirst : first b s with
        | none =>
          rw [hfirst] at hline
          cases hline
          exact first_eq_none.mp hfirst
        | some p =>
          rw [hfirst] at hline
          cases hline
          exact (first_eq_some.mp hfirst).2
    · exact ih h

end Split
