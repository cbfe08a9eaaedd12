import Mathlib.Data.List.Basic

/-!
# JSON documents

A JSON document as a tree. The members of an object are sorted by their names, so documents with
the same members are equal. Names and strings are of a type `κ` with a linear order.
-/

/-- A JSON document. A real number is given by the bits of a double. -/
inductive JsonTree (κ : Type _)
  | null
  | bool (b : Bool)
  | integer (n : Int)
  | real (bits : UInt64)
  | string (s : κ)
  | array (items : List (JsonTree κ))
  | object (members : List (κ × JsonTree κ))

namespace JsonTree

/-! ## Members -/

section Members
variable {κ β : Type _} [DecidableEq κ]

/-- The value of a member. -/
def lookup (name : κ) : List (κ × β) → Option β
  | [] => none
  | m :: members => if m.1 = name then some m.2 else lookup name members

theorem mem_of_lookup {members : List (κ × β)} (h : lookup name members = some v) :
    (name, v) ∈ members := by
  induction members with
  | nil => cases h
  | cons m members ih =>
    rw [lookup] at h
    split at h
    · next heq =>
      cases h
      exact heq ▸ List.mem_cons_self
    · exact .tail m (ih h)

variable [LT κ]

/-- The names ascend. -/
def Sorted (members : List (κ × β)) : Prop := members.Pairwise (·.1 < ·.1)

variable [LE κ] [Std.LawfulOrderLT κ] in
theorem Sorted.lookup_of_mem {members : List (κ × β)} (h : Sorted members) (hm : m ∈ members) :
    lookup m.1 members = some m.2 := by
  induction members with
  | nil => cases hm
  | cons m' members ih =>
    obtain ⟨hm', hmembers⟩ := List.pairwise_cons.mp h
    rcases List.mem_cons.mp hm with rfl | hm
    · rw [lookup, if_pos rfl]
    · have hne : m'.1 ≠ m.1 := fun heq => Std.lt_irrefl (heq ▸ hm' m hm)
      rw [lookup, if_neg hne, ih hmembers hm]

variable [DecidableLT κ]

/-- The members after an assignment: it replaces the value of a member, or adds one in its place. -/
def assign (members : List (κ × β)) (name : κ) (v : β) : List (κ × β) :=
  match members with
  | [] => [(name, v)]
  | m :: members =>
    if name < m.1 then (name, v) :: m :: members
    else if m.1 = name then (name, v) :: members
    else m :: assign members name v

@[simp] theorem lookup_assign_self (members : List (κ × β)) (name : κ) (v : β) :
    lookup name (assign members name v) = some v := by
  induction members with
  | nil => rw [assign, lookup, if_pos rfl]
  | cons m members ih =>
    rw [assign]
    split
    · rw [lookup, if_pos rfl]
    · split
      · rw [lookup, if_pos rfl]
      · next hne => rw [lookup, if_neg hne, ih]

theorem lookup_assign_of_ne (members : List (κ × β)) (v : β) (h : name' ≠ name) :
    lookup name' (assign members name v) = lookup name' members := by
  induction members with
  | nil => exact if_neg (Ne.symm h)
  | cons m members ih =>
    rw [assign]
    split
    · rw [lookup, if_neg (Ne.symm h)]
    · split
      · next heq =>
        rw [lookup, lookup, if_neg (Ne.symm h), if_neg (heq ▸ Ne.symm h)]
      · rw [lookup, lookup, ih]

theorem mem_assign {members : List (κ × β)} {name : κ} {v : β} (h : m ∈ assign members name v) :
    m = (name, v) ∨ m ∈ members := by
  induction members with
  | nil => exact .inl (List.mem_singleton.mp h)
  | cons m' members ih =>
    rw [assign] at h
    split at h
    · exact List.mem_cons.mp h
    · split at h
      · exact (List.mem_cons.mp h).imp_right (.tail m')
      · rcases List.mem_cons.mp h with rfl | h
        · exact .inr List.mem_cons_self
        · exact (ih h).imp_right (.tail m')

variable [LE κ] [Std.IsLinearOrder κ] [Std.LawfulOrderLT κ]

theorem Sorted.assign {members : List (κ × β)} (h : Sorted members) (name : κ) (v : β) :
    Sorted (assign members name v) := by
  induction members with
  | nil => exact List.pairwise_singleton _ _
  | cons m members ih =>
    obtain ⟨hm, hmembers⟩ := List.pairwise_cons.mp h
    rw [JsonTree.assign]
    split
    · next hlt =>
      refine List.pairwise_cons.mpr ⟨fun m' hm' => ?_, h⟩
      rcases List.mem_cons.mp hm' with rfl | hm'
      · exact hlt
      · exact Std.lt_trans hlt (hm m' hm')
    · next hnot =>
      split
      · next heq =>
        subst heq
        exact List.pairwise_cons.mpr ⟨hm, hmembers⟩
      · next hne =>
        refine List.pairwise_cons.mpr ⟨fun m' hm' => ?_, ih hmembers⟩
        rcases mem_assign hm' with rfl | hm'
        · exact Std.lt_of_le_of_ne (Std.not_lt.mp hnot) hne
        · exact hm m' hm'

end Members

/-! ## Documents -/

variable {κ : Type _}

/-- `find`: what is not an object has no members. -/
def find [DecidableEq κ] (j : JsonTree κ) (name : κ) : Option (JsonTree κ) :=
  match j with
  | .object members => lookup name members
  | _ => none

def isObject : JsonTree κ → Bool
  | .object _ => true
  | _ => false

/-- The documents that a text can denote: the members of the objects are sorted, an integer is one
of 64 bits, signed or unsigned, and a real number is finite. -/
inductive WellFormed [LT κ] : JsonTree κ → Prop
  | null : WellFormed .null
  | bool (b : Bool) : WellFormed (.bool b)
  | integer (hlow : -9223372036854775808 ≤ n) (hhigh : n ≤ 18446744073709551615) :
    WellFormed (.integer n)
  | real (hfinite : bits &&& 0x7ff0000000000000 ≠ 0x7ff0000000000000) : WellFormed (.real bits)
  | string (s : κ) : WellFormed (.string s)
  | array (hitems : ∀ j ∈ items, WellFormed j) : WellFormed (.array items)
  | object (hsorted : Sorted members) (hmembers : ∀ m ∈ members, WellFormed m.2) :
    WellFormed (.object members)

variable [LT κ] {members : List (κ × JsonTree κ)}

theorem WellFormed.sorted (h : WellFormed (.object members)) : Sorted members := by
  cases h with
  | object hsorted hmembers => exact hsorted

variable [DecidableEq κ]

theorem WellFormed.of_lookup (h : WellFormed (.object members))
    (hv : lookup name members = some v) : WellFormed v := by
  cases h with
  | object hsorted hmembers => exact hmembers _ (mem_of_lookup hv)

variable [DecidableLT κ] [LE κ] [Std.IsLinearOrder κ] [Std.LawfulOrderLT κ]

/-- An assignment of a well-formed value keeps an object well-formed. -/
theorem WellFormed.assign (h : WellFormed (.object members)) (name : κ) (hv : WellFormed v) :
    WellFormed (.object (JsonTree.assign members name v)) := by
  cases h with
  | object hsorted hmembers =>
    refine .object (hsorted.assign name v) fun m hm => ?_
    rcases mem_assign hm with rfl | hm
    · exact hv
    · exact hmembers m hm

end JsonTree
