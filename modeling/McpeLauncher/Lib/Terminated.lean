import Mathlib.Data.List.TakeWhile

/-!
# Terminated texts

What a reader gets that stops at a terminator: a C string out of the bytes of a buffer.
-/

namespace Terminated

variable {α : Type _} [DecidableEq α] {z : α} {s : List α}

/-- The text up to the first terminator. -/
def upTo (z : α) (s : List α) : List α := s.takeWhile (· ≠ z)

theorem upTo_append_of_not_mem (h : z ∉ s) (t : List α) : upTo z (s ++ t) = s ++ upTo z t :=
  List.takeWhile_append_of_pos fun _ ha => decide_eq_true (ne_of_mem_of_not_mem ha h)

theorem upTo_of_not_mem (h : z ∉ s) : upTo z s = s := by
  have happend := upTo_append_of_not_mem h []
  rw [List.append_nil] at happend
  exact happend.trans (List.append_nil s)

theorem not_mem_upTo (z : α) (s : List α) : z ∉ upTo z s := by
  intro h
  have hne := List.mem_takeWhile_imp h
  exact absurd rfl (of_decide_eq_true hne)

theorem upTo_upTo (z : α) (s : List α) : upTo z (upTo z s) = upTo z s :=
  upTo_of_not_mem (not_mem_upTo z s)

theorem upTo_cons_self (z : α) (s : List α) : upTo z (z :: s) = [] :=
  List.takeWhile_cons_of_neg (by simp)

/-- The text ends at the first terminator. -/
theorem exists_upTo_append (h : z ∈ s) : ∃ r, s = upTo z s ++ z :: r := by
  obtain ⟨l, r, rfl, hl⟩ := List.eq_append_cons_of_mem h
  exact ⟨r, by rw [upTo_append_of_not_mem hl, upTo_cons_self, List.append_nil]⟩

theorem upTo_append_of_mem (h : z ∈ s) (t : List α) : upTo z (s ++ t) = upTo z s := by
  obtain ⟨l, r, rfl, hl⟩ := List.eq_append_cons_of_mem h
  rw [List.append_assoc, upTo_append_of_not_mem hl, upTo_append_of_not_mem hl, List.cons_append,
    upTo_cons_self, upTo_cons_self]

/-- What stands behind a terminator does not count. -/
theorem upTo_append_terminator (s t : List α) : upTo z (s ++ z :: t) = upTo z s := by
  by_cases h : z ∈ s
  · exact upTo_append_of_mem h _
  · rw [upTo_append_of_not_mem h, upTo_cons_self, List.append_nil, upTo_of_not_mem h]

end Terminated
