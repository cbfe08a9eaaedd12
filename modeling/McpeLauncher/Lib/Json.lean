import Mathlib.Data.List.Basic

/-!
# JSON values

JSON values with the typed access that a C++ program has to them. A result `none` stands for the
exception for a value of the wrong type.
-/

/-- A JSON value. A number is given by the integer it is converted to; the members of an object
have different names. -/
inductive Json
  | null
  | bool (b : Bool)
  | number (n : Int)
  | string (s : String)
  | array (items : List Json)
  | object (members : List (String × Json))

namespace Json

/-- The value of a member. -/
def member (name : String) (members : List (String × Json)) : Option Json :=
  (members.find? (·.1 = name)).map (·.2)

/-- `find`: what is not an object has no members. -/
def find (j : Json) (name : String) : Option Json :=
  match j with
  | .object members => member name members
  | _ => none

/-- The members after the assignment of a value to one of them. -/
def assign (members : List (String × Json)) (name : String) (v : Json) : List (String × Json) :=
  members.filter (·.1 ≠ name) ++ [(name, v)]

/-- `j[name] = v`. A null value becomes an object. -/
def set (j : Json) (name : String) (v : Json) : Option Json :=
  match j with
  | .null => some (.object [(name, v)])
  | .object members => some (.object (assign members name v))
  | _ => none

/-- `j[name]`, and the value after it: a member that does not exist is added with the value null. -/
def index (j : Json) (name : String) : Option (Json × Json) :=
  match j.find name with
  | some v => some (v, j)
  | none => (j.set name .null).map (.null, ·)

def isNumber : Json → Bool
  | .number _ => true
  | _ => false

/-- `get<int>()`. -/
def getInt : Json → Option Int
  | .number n => some n
  | .bool b => some (if b then 1 else 0)
  | _ => none

/-- `get<std::string>()`. -/
def getString : Json → Option String
  | .string s => some s
  | _ => none

/-- `value(name, dflt)`, with the conversion `get` of the member. -/
def value (get : Json → Option α) (j : Json) (name : String) (dflt : α) : Option α :=
  match j with
  | .object members =>
    match member name members with
    | some v => get v
    | none => some dflt
  | _ => none

def valueInt (j : Json) (name : String) (dflt : Int) : Option Int := j.value getInt name dflt

/-- A sequence of assignments. -/
def setAll (j : Json) (members : List (String × Json)) : Option Json :=
  members.foldlM (fun j m => j.set m.1 m.2) j

/-! ## Members -/

theorem member_assign_self (members : List (String × Json)) (name : String) (v : Json) :
    member name (assign members name v) = some v := by
  have hnone : (members.filter (·.1 ≠ name)).find? (·.1 = name) = none := by
    simp [List.find?_eq_none]
  simp only [member, assign, List.find?_append, hnone, Option.none_or, List.find?_singleton,
    decide_true, if_true, Option.map_some]

theorem member_assign_of_ne (members : List (String × Json)) {name name' : String} (v : Json)
    (h : name' ≠ name) : member name' (assign members name v) = member name' members := by
  have hfilter : (members.filter (·.1 ≠ name)).find? (·.1 = name') =
      members.find? (·.1 = name') := by
    rw [List.find?_filter]
    congr 1
    funext m
    by_cases hm : m.1 = name'
    · simp [hm, h]
    · simp [hm]
  simp only [member, assign, List.find?_append, hfilter, List.find?_singleton,
    decide_eq_true_eq, if_neg (Ne.symm h), Option.or_none]

/-- An assignment to an object changes that member only. -/
theorem find_set {j j' : Json} {name : String} {v : Json} (h : j.set name v = some j')
    (name' : String) : j'.find name' = if name' = name then some v else j.find name' := by
  cases j with
  | null =>
    cases h
    by_cases hn : name' = name
    · simp [find, member, hn]
    · simp [find, member, hn, Ne.symm hn]
  | object members =>
    cases h
    split
    · next hn => rw [hn]; exact member_assign_self members name v
    · next hn => exact member_assign_of_ne members v hn
  | bool b => cases h
  | number n => cases h
  | string s => cases h
  | array items => cases h

/-- Reading a member gives null if it is not there, and leaves the others as they are. -/
theorem index_eq_some {j v j' : Json} {name : String} (h : j.index name = some (v, j')) :
    v = (j.find name).getD .null ∧ ∀ name' ≠ name, j'.find name' = j.find name' := by
  unfold index at h
  split at h
  · next hf =>
    cases h
    exact ⟨by rw [hf]; rfl, fun _ _ => rfl⟩
  · next hf =>
    obtain ⟨j₁, hset, h⟩ := Option.map_eq_some_iff.mp h
    cases h
    refine ⟨by rw [hf]; rfl, fun name' hne => ?_⟩
    rw [find_set hset, if_neg hne]

/-- A value with a member is an object, so any member can be read. -/
theorem exists_index_of_find {j v : Json} {name : String} (h : j.find name = some v)
    (name' : String) : ∃ r, j.index name' = some r := by
  cases j with
  | object members =>
    unfold index
    split
    · exact ⟨_, rfl⟩
    · exact ⟨_, rfl⟩
  | null => cases h
  | bool b => cases h
  | number n => cases h
  | string s => cases h
  | array items => cases h

theorem value_of_find {get : Json → Option α} {j v : Json} (h : j.find name = some v) (dflt : α) :
    j.value get name dflt = get v := by
  cases j with
  | object members => simp only [find] at h; simp only [value, h]
  | null => cases h
  | bool b => cases h
  | number n => cases h
  | string s => cases h
  | array items => cases h

theorem valueInt_of_find {j v : Json} (h : j.find name = some v) (dflt : Int) :
    j.valueInt name dflt = v.getInt :=
  value_of_find h dflt

/-- After a sequence of assignments a member has the value assigned last. -/
theorem find_setAll {j j' : Json} {members : List (String × Json)} (h : j.setAll members = some j')
    (name : String) :
    j'.find name = ((members.reverse.find? (·.1 = name)).map (·.2)).or (j.find name) := by
  induction members generalizing j with
  | nil => cases h; rfl
  | cons m members ih =>
    obtain ⟨j₁, h₁, h₂⟩ := Option.bind_eq_some_iff.mp h
    rw [ih h₂, find_set h₁, List.reverse_cons, List.find?_append, List.find?_singleton]
    cases hm : members.reverse.find? (·.1 = name) with
    | some v => simp
    | none =>
      by_cases hn : m.1 = name
      · simp [hn]
      · simp [hn, Ne.symm hn]

/-- Assignments to the members of an object succeed. -/
theorem exists_setAll_object (members fields : List (String × Json)) :
    ∃ members', (Json.object members).setAll fields = some (.object members') := by
  induction fields generalizing members with
  | nil => exact ⟨members, rfl⟩
  | cons m fields ih =>
    obtain ⟨members', h⟩ := ih (assign members m.1 m.2)
    exact ⟨members', h⟩

/-- A null value becomes an object with the first assignment. -/
theorem exists_setAll_null (m : String × Json) (fields : List (String × Json)) :
    ∃ members, Json.null.setAll (m :: fields) = some (.object members) :=
  exists_setAll_object [(m.1, m.2)] fields

theorem isObject_of_value {get : Json → Option α} {j : Json} {dflt a : α}
    (h : j.value get name dflt = some a) : ∃ members, j = .object members := by
  cases j with
  | object members => exact ⟨members, rfl⟩
  | null => cases h
  | bool b => cases h
  | number n => cases h
  | string s => cases h
  | array items => cases h

theorem isObject_of_find {j v : Json} (h : j.find name = some v) : ∃ members, j = .object members := by
  cases j with
  | object members => exact ⟨members, rfl⟩
  | null => cases h
  | bool b => cases h
  | number n => cases h
  | string s => cases h
  | array items => cases h

end Json
