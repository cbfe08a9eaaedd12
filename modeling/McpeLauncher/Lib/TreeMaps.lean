import Mathlib.Data.List.Basic
import Mathlib.Data.List.Induction

/-!
# Maps filled from a list

What a tree map holds after the entries made of the elements of a list are inserted one after the
other. An element inserted later replaces an earlier one with the same key.
-/

namespace TreeMaps

variable {α κ β : Type _} [Ord κ] [Std.TransOrd κ] [Std.LawfulEqOrd κ] {f : α → κ} {g : α → β}
  {l : List α}

theorem getElem?_foldl_insert_of_ne (h : ∀ a ∈ l, f a ≠ k) (m : Std.TreeMap κ β) :
    (l.foldl (fun m a => m.insert (f a) (g a)) m)[k]? = m[k]? := by
  induction l generalizing m with
  | nil => rfl
  | cons a l ih =>
    have hne : compare (f a) k ≠ .eq := fun he => h a (.head l) (Std.LawfulEqOrd.eq_of_compare he)
    rw [List.foldl_cons, ih fun b hb => h b (.tail a hb), Std.TreeMap.getElem?_insert, if_neg hne]

/-- All elements with the key `k` have the value `v`. -/
theorem getElem?_foldl_insert_of_eq (hk : ∃ a ∈ l, f a = k) (h : ∀ a ∈ l, f a = k → g a = v)
    (m : Std.TreeMap κ β) :
    (l.foldl (fun m a => m.insert (f a) (g a)) m)[k]? = some v := by
  induction l generalizing m with
  | nil =>
    obtain ⟨a, ha, _⟩ := hk
    exact absurd ha List.not_mem_nil
  | cons a l ih =>
    rw [List.foldl_cons]
    by_cases hl : ∃ b ∈ l, f b = k
    · exact ih hl (fun b hb => h b (.tail a hb)) _
    · have ha : f a = k := by
        obtain ⟨b, hb, hbk⟩ := hk
        rcases List.mem_cons.mp hb with rfl | hb
        · exact hbk
        · exact absurd ⟨b, hb, hbk⟩ hl
      rw [getElem?_foldl_insert_of_ne fun b hb he => hl ⟨b, hb, he⟩, ha,
        Std.TreeMap.getElem?_insert_self, h a (.head l) ha]

/-- The last element with a key counts. -/
theorem getElem?_foldl_insert [DecidableEq κ] (f : α → κ) (g : α → β) (l : List α) (k : κ) :
    (l.foldl (fun m a => m.insert (f a) (g a)) (∅ : Std.TreeMap κ β))[k]? =
      (l.reverse.find? (f · = k)).map g := by
  induction l using List.reverseRecOn with
  | nil => exact Std.TreeMap.getElem?_emptyc
  | append_singleton l a ih =>
    rw [List.foldl_append, List.foldl_cons, List.foldl_nil, Std.TreeMap.getElem?_insert, ih,
      List.reverse_append, List.reverse_singleton, List.singleton_append]
    by_cases ha : f a = k
    · rw [if_pos (ha ▸ Std.ReflCmp.compare_self), List.find?_cons_of_pos (by simpa using ha)]
      rfl
    · rw [if_neg fun h => ha (Std.LawfulEqOrd.eq_of_compare h),
        List.find?_cons_of_neg (by simpa using ha)]

/-- A map is filled again with its own entries, their values mapped. -/
theorem getElem?_foldl_insert_toList {γ : Type _} (t : Std.TreeMap κ γ) (g : γ → β) (k : κ) :
    (t.toList.foldl (fun m e => m.insert e.1 (g e.2)) (∅ : Std.TreeMap κ β))[k]? = t[k]?.map g := by
  cases hk : t[k]? with
  | none =>
    apply (getElem?_foldl_insert_of_ne ..).trans
    · rw [Option.map_none]
      exact Std.TreeMap.getElem?_emptyc
    · rintro e he rfl
      have he := Std.TreeMap.mem_toList_iff_getElem?_eq_some.mp he
      rw [hk] at he
      cases he
  | some v =>
    apply getElem?_foldl_insert_of_eq
    · exact ⟨(k, v), Std.TreeMap.mem_toList_iff_getElem?_eq_some.mpr hk, rfl⟩
    · rintro e he rfl
      have he := Std.TreeMap.mem_toList_iff_getElem?_eq_some.mp he
      rw [hk] at he
      cases he
      rfl

end TreeMaps
