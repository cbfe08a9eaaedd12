import Mathlib.Data.List.Nodup
import Mathlib.Logic.Function.Basic

/-!
# Assignments to places

A list of assignments, each of which replaces the value at a place by a function of it, one after
the other. Where the places are different, each assignment sees the value from the beginning.
-/

namespace Assignments

variable {α β : Type _} [DecidableEq α]

/-- A place, and the new value there by the old one. -/
abbrev Assignment (α β : Type _) := α × (β → β)

def assign (m : α → β) (x : Assignment α β) : α → β := Function.update m x.1 (x.2 (m x.1))

def assignAll (xs : List (Assignment α β)) (m : α → β) : α → β := xs.foldl assign m

variable {xs ys : List (Assignment α β)} {x : Assignment α β} {m : α → β} {a : α}

@[simp] theorem assignAll_nil (m : α → β) : assignAll [] m = m := rfl

theorem assignAll_append (xs ys : List (Assignment α β)) (m : α → β) :
    assignAll (xs ++ ys) m = assignAll ys (assignAll xs m) := List.foldl_append

end Assignments
