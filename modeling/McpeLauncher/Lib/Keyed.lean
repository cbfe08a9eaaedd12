import Mathlib.Data.List.Nodup

/-!
# Lists with distinct keys

A list whose elements have pairwise distinct keys, for a function `key`: lookup and removal by key,
and loops that act on the elements of one key only.
-/

namespace Keyed

variable {α κ : Type _} [DecidableEq κ] {key : α → κ} {l : List α}

theorem find?_of_mem (hl : (l.map key).Nodup) {a : α} (ha : a ∈ l) :
    l.find? (key · = key a) = some a := by
  induction l with
  | nil => exact absurd ha List.not_mem_nil
  | cons b l ih =>
    obtain ⟨hb, hl⟩ := List.nodup_cons.mp hl
    rcases List.mem_cons.mp ha with rfl | ha
    · exact List.find?_cons_of_pos (by simp)
    · have hne : key b ≠ key a := fun he => hb (he ▸ List.mem_map_of_mem ha)
      rw [List.find?_cons_of_neg (by simpa using hne)]
      exact ih hl ha

theorem find?_eq_some_iff (hl : (l.map key).Nodup) {k : κ} {a : α} :
    l.find? (key · = k) = some a ↔ a ∈ l ∧ key a = k := by
  constructor
  · intro h
    exact ⟨List.mem_of_find?_eq_some h, by simpa using List.find?_some h⟩
  · rintro ⟨ha, rfl⟩
    exact find?_of_mem hl ha

theorem mem_eraseP_iff (hl : (l.map key).Nodup) {k : κ} {a : α} :
    a ∈ l.eraseP (key · = k) ↔ a ∈ l ∧ key a ≠ k := by
  induction l with
  | nil => simp
  | cons b l ih =>
    obtain ⟨hb, hl⟩ := List.nodup_cons.mp hl
    by_cases hk : key b = k
    · rw [List.eraseP_cons_of_pos (by simpa using hk), List.mem_cons]
      constructor
      · intro ha
        exact ⟨.inr ha, fun he => hb (hk.trans he.symm ▸ List.mem_map_of_mem ha)⟩
      · rintro ⟨rfl | ha, hne⟩
        · exact absurd hk hne
        · exact ha
    · rw [List.eraseP_cons_of_neg (by simpa using hk), List.mem_cons, List.mem_cons, ih hl]
      constructor
      · rintro (rfl | ⟨ha, hne⟩)
        · exact ⟨.inl rfl, hk⟩
        · exact ⟨.inr ha, hne⟩
      · rintro ⟨rfl | ha, hne⟩
        · exact .inl rfl
        · exact .inr ⟨ha, hne⟩

/-- A loop that acts on the elements with the key `k` only does nothing without one. -/
theorem foldl_of_not_mem {σ : Type _} (f : σ → α → σ) {k : κ} (hk : k ∉ l.map key) (s : σ) :
    l.foldl (fun s a => if key a = k then f s a else s) s = s := by
  induction l generalizing s with
  | nil => rfl
  | cons a l ih =>
    rw [List.map_cons, List.mem_cons, not_or] at hk
    rw [List.foldl_cons, if_neg fun he => hk.1 he.symm]
    exact ih hk.2 s

/-- With one, it does that one action. -/
theorem foldl_of_mem {σ : Type _} (f : σ → α → σ) (hl : (l.map key).Nodup) {a : α} (ha : a ∈ l)
    (s : σ) : l.foldl (fun s b => if key b = key a then f s b else s) s = f s a := by
  induction l generalizing s with
  | nil => exact absurd ha List.not_mem_nil
  | cons b l ih =>
    obtain ⟨hb, hl⟩ := List.nodup_cons.mp hl
    rw [List.foldl_cons]
    rcases List.mem_cons.mp ha with rfl | ha
    · rw [if_pos rfl]
      exact foldl_of_not_mem f hb _
    · have hne : key b ≠ key a := fun he => hb (he ▸ List.mem_map_of_mem ha)
      rw [if_neg hne]
      exact ih hl ha s

end Keyed
