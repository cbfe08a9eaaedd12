import McpeLauncher.Lib.Keyed

/-!
# Maps without an order

A hash map as the list of its entries in the order in which they are iterated. Nothing is known of
that order; what a map has is asked by key.
-/

structure UnorderedMap (κ β : Type _) where
  entries : List (κ × β)
  nodup : (entries.map (·.1)).Nodup

namespace UnorderedMap

variable {κ β : Type _} [DecidableEq κ] {m : UnorderedMap κ β} {k : κ} {v : β}

def empty : UnorderedMap κ β := ⟨[], .nil⟩

def find (m : UnorderedMap κ β) (k : κ) : Option β := (m.entries.find? (·.1 = k)).map (·.2)

theorem find_eq_some_iff : m.find k = some v ↔ (k, v) ∈ m.entries := by
  rw [find, Option.map_eq_some_iff]
  constructor
  · rintro ⟨e, he, rfl⟩
    obtain ⟨hmem, rfl⟩ := (Keyed.find?_eq_some_iff m.nodup).mp he
    exact hmem
  · intro h
    exact ⟨(k, v), (Keyed.find?_eq_some_iff m.nodup).mpr ⟨h, rfl⟩, rfl⟩

theorem find_eq_none_iff : m.find k = none ↔ k ∉ m.entries.map (·.1) := by
  rw [find, Option.map_eq_none_iff, List.find?_eq_none, List.mem_map]
  constructor
  · rintro h ⟨e, he, hk⟩
    exact h e he (by simpa using hk)
  · intro h e he hk
    exact h ⟨e, he, by simpa using hk⟩

/-- `m[k] = v`. -/
def assign (m : UnorderedMap κ β) (k : κ) (v : β) : UnorderedMap κ β where
  entries := (k, v) :: m.entries.filter (·.1 ≠ k)
  nodup := by
    rw [List.map_cons, List.nodup_cons]
    refine ⟨?_, m.nodup.sublist (List.filter_sublist.map _)⟩
    simp

/-- `insert`: an entry that is there stays. -/
def insert (m : UnorderedMap κ β) (k : κ) (v : β) : UnorderedMap κ β :=
  if m.find k = none then m.assign k v else m

theorem find_assign (m : UnorderedMap κ β) (k : κ) (v : β) (k' : κ) :
    (m.assign k v).find k' = if k = k' then some v else m.find k' := by
  simp only [find, assign]
  split
  · next h =>
    rw [List.find?_cons_of_pos (by simpa using h)]
    rfl
  · next h =>
    rw [List.find?_cons_of_neg (by simpa using h), List.find?_filter]
    congr 2
    funext e
    by_cases he : e.1 = k'
    · simp [he, Ne.symm h]
    · simp [he]

theorem find_insert (m : UnorderedMap κ β) (k : κ) (v : β) (k' : κ) :
    (m.insert k v).find k' = if k = k' then some ((m.find k).getD v) else m.find k' := by
  rw [insert]
  split
  · next h => rw [find_assign, h, Option.getD_none]
  · next h =>
    obtain ⟨w, hw⟩ := Option.ne_none_iff_exists'.mp h
    split
    · next hk => rw [← hk, hw, Option.getD_some]
    · rfl

/-- Entries with different keys, one after the other. -/
theorem find_foldl_assign {l : List (κ × β)} (hl : (l.map (·.1)).Nodup) (m : UnorderedMap κ β)
    (k : κ) : (l.foldl (fun m e => m.assign e.1 e.2) m).find k =
      ((l.find? (·.1 = k)).map (·.2)).or (m.find k) := by
  induction l generalizing m with
  | nil => rfl
  | cons e l ih =>
    obtain ⟨he, hl⟩ := List.nodup_cons.mp hl
    rw [List.foldl_cons, ih hl, find_assign]
    by_cases hk : e.1 = k
    · have hnone : l.find? (·.1 = k) = none := by
        rw [List.find?_eq_none]
        intro e' he' hk'
        have heq : e.1 = e'.1 := hk.trans (of_decide_eq_true hk').symm
        exact he (List.mem_map.mpr ⟨e', he', heq.symm⟩)
      rw [if_pos hk, hnone, List.find?_cons_of_pos (by simpa using hk)]
      rfl
    · rw [if_neg hk, List.find?_cons_of_neg (by simpa using hk)]

/-- The entries of one map assigned in another. -/
theorem find_foldl_entries (m m' : UnorderedMap κ β) (k : κ) :
    (m.entries.foldl (fun m e => m.assign e.1 e.2) m').find k = (m.find k).or (m'.find k) :=
  find_foldl_assign m.nodup m' k

end UnorderedMap
