import Mathlib.Data.List.Basic

/-!
# Logs of things that are opened and closed

A log of marks, the newest one first: each mark says that the thing with a key was opened, used or
closed.
-/

namespace Pairing

inductive Mark
  | opened
  | used
  | closed
  deriving DecidableEq

variable {κ : Type _} [DecidableEq κ]

/-- The last opening of `k` has not been followed by a closing. -/
def isOpen (k : κ) : List (κ × Mark) → Bool
  | [] => false
  | (k', .opened) :: log => if k' = k then true else isOpen k log
  | (_, .used) :: log => isOpen k log
  | (k', .closed) :: log => if k' = k then false else isOpen k log

/-- What is used or closed is open, and what is opened is not. -/
def WellPaired : List (κ × Mark) → Prop
  | [] => True
  | (k, .opened) :: log => isOpen k log = false ∧ WellPaired log
  | (k, .used) :: log => isOpen k log = true ∧ WellPaired log
  | (k, .closed) :: log => isOpen k log = true ∧ WellPaired log

variable {k k' : κ} {log : List (κ × Mark)}

@[simp] theorem isOpen_nil : isOpen k [] = false := rfl

@[simp] theorem isOpen_opened : isOpen k ((k', .opened) :: log) = (decide (k' = k) || isOpen k log) := by
  by_cases h : k' = k
  · simp [isOpen, h]
  · simp [isOpen, h]

@[simp] theorem isOpen_used : isOpen k ((k', .used) :: log) = isOpen k log := rfl

@[simp] theorem isOpen_closed :
    isOpen k ((k', .closed) :: log) = (decide (k' ≠ k) && isOpen k log) := by
  by_cases h : k' = k
  · simp [isOpen, h]
  · simp [isOpen, h]

/-- If `k` is not open, each opening of it is followed by a closing. -/
theorem closed_of_not_isOpen (h : isOpen k (newer ++ (k, .opened) :: older) = false) :
    (k, .closed) ∈ newer := by
  induction newer with
  | nil => simp at h
  | cons m newer ih =>
    obtain ⟨k', mark⟩ := m
    cases mark with
    | opened =>
      rw [List.cons_append, isOpen_opened, Bool.or_eq_false_iff] at h
      exact .tail _ (ih h.2)
    | used => exact .tail _ (ih h)
    | closed =>
      by_cases hk : k' = k
      · rw [hk]
        exact .head _
      · rw [List.cons_append, isOpen_closed, decide_eq_true hk, Bool.true_and] at h
        exact .tail _ (ih h)

end Pairing
