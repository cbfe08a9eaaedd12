import Mathlib.Data.List.Basic
import Mathlib.Data.List.Nodup

/-!
# Linked lists

`prev` and `next` are the link fields of nodes in a heap. `Linked` says that they link the nodes of
a list in order; the two rules are for a node that is appended at the back and for one that is
unlinked. `Chain` is the same for nodes with a value and one link.
-/

namespace LinkedList

variable {ι : Type _} {prev next prev' next' : ι → Option ι} {L : List ι}

/-- The fields link the nodes of the list in order, wherever it is split at a node. -/
def Linked (prev next : ι → Option ι) (L : List ι) : Prop :=
  ∀ A x B, L = A ++ x :: B → prev x = A.getLast? ∧ next x = B.head?

theorem Linked.nil : Linked prev next [] :=
  fun A x B h => by simp at h

theorem Linked.congr (h : Linked prev next L) (hprev : ∀ x ∈ L, prev' x = prev x)
    (hnext : ∀ x ∈ L, next' x = next x) : Linked prev' next' L := by
  rintro A x B rfl
  rw [hprev x (by simp), hnext x (by simp)]
  exact h A x B rfl

/-- The node that comes before another one is in the list and linked to it. -/
theorem Linked.next_of_prev (h : Linked prev next L) (hx : x ∈ L) (hy : prev x = some y) :
    y ∈ L ∧ next y = some x := by
  obtain ⟨A, B, rfl⟩ := List.append_of_mem hx
  rw [(h A x B rfl).1, List.getLast?_eq_some_iff] at hy
  obtain ⟨A, rfl⟩ := hy
  exact ⟨by simp, (h A y (x :: B) (by simp)).2⟩

theorem Linked.prev_of_next (h : Linked prev next L) (hx : x ∈ L) (hy : next x = some y) :
    y ∈ L ∧ prev y = some x := by
  obtain ⟨A, B, rfl⟩ := List.append_of_mem hx
  rw [(h A x B rfl).2, List.head?_eq_some_iff] at hy
  obtain ⟨B, rfl⟩ := hy
  exact ⟨by simp, by simpa using (h (A ++ [x]) y B (by simp)).1⟩

/-! ## Singly linked lists -/

section Chain
variable {α : Type _} {node node' : ι → Option (α × Option ι)} {p : Option ι} {C : List (ι × α)}

/-- The pointer leads through the nodes of the list, with their values, to the end. -/
def Chain (node : ι → Option (α × Option ι)) : Option ι → List (ι × α) → Prop
  | p, [] => p = none
  | p, (x, a) :: C => p = some x ∧ ∃ next, node x = some (a, next) ∧ Chain node next C

theorem Chain.node_of_mem {x : ι} {a : α} (h : Chain node p C) (hx : (x, a) ∈ C) :
    ∃ next, node x = some (a, next) := by
  induction C generalizing p with
  | nil => cases hx
  | cons c C ih =>
    obtain ⟨-, next, hc, hrest⟩ := h
    obtain rfl | hx := List.mem_cons.mp hx
    · exact ⟨next, hc⟩
    · exact ih hrest hx

theorem Chain.congr (h : Chain node p C) (hnode : ∀ x ∈ C.map Prod.fst, node' x = node x) :
    Chain node' p C := by
  induction C generalizing p with
  | nil => exact h
  | cons c C ih =>
    obtain ⟨hp, next, hc, hrest⟩ := h
    refine ⟨hp, next, (hnode c.1 (.head _)).trans hc, ih hrest fun x hx => hnode x (.tail _ hx)⟩

/-- **Append a node** behind the last one, which gets its address. -/
theorem Chain.concat {y : ι} {b : α} (h : Chain node p C)
    (hfront : ∀ x ∈ C.dropLast.map Prod.fst, node' x = node x)
    (hlast : ∀ x a, C.getLast? = some (x, a) → node' x = some (a, some y))
    (hnew : node' y = some (b, none)) :
    Chain node' (if C = [] then some y else p) (C ++ [(y, b)]) := by
  induction C generalizing p with
  | nil => exact ⟨rfl, none, hnew, rfl⟩
  | cons c C ih =>
    obtain ⟨hp, next, hc, hrest⟩ := h
    refine ⟨hp, ?_⟩
    cases C with
    | nil => exact ⟨some y, hlast c.1 c.2 rfl, rfl, none, hnew, rfl⟩
    | cons d C =>
      have hchain := ih hrest (fun x hx => hfront x (.tail _ hx))
        fun x a hx => hlast x a ((List.getLast?_cons_cons).trans hx)
      rw [if_neg (List.cons_ne_nil d C)] at hchain
      exact ⟨next, (hfront c.1 (.head _)).trans hc, hchain⟩

end Chain

/-! ## Appending a node -/

theorem head?_ne (h : x ∉ L) : L.head? ≠ some x :=
  fun hx => h (List.mem_of_head? hx)

theorem getLast?_ne (h : x ∉ L) : L.getLast? ≠ some x :=
  fun hx => h (List.mem_of_getLast? hx)

theorem notMem_of_nodup {P Q : List ι} (hn : (P ++ x :: Q).Nodup) : x ∉ P ∧ x ∉ Q := by
  rw [List.nodup_middle, List.nodup_cons, List.mem_append, not_or] at hn
  exact hn.1

variable [DecidableEq ι]

/-- **Append a node**: `y` points back to the node that was the last one, and that one to `y`. -/
theorem Linked.concat (h : Linked prev next L) (hn : L.Nodup)
    (hprev : ∀ x ∈ L, prev' x = prev x)
    (hnext : ∀ x ∈ L, next' x = if L.getLast? = some x then some y else next x)
    (hprev' : prev' y = L.getLast?) (hnext' : next' y = none) :
    Linked prev' next' (L ++ [y]) := by
  intro A x B hsplit
  rcases List.eq_nil_or_concat B with rfl | ⟨B, z, rfl⟩
  · obtain ⟨rfl, hxy⟩ := List.append_inj' hsplit rfl
    cases hxy
    exact ⟨hprev', hnext'⟩
  · have hsplit' : L ++ [y] = (A ++ x :: B) ++ [z] := by simpa using hsplit
    obtain ⟨rfl, hyz⟩ := List.append_inj' hsplit' rfl
    cases hyz
    obtain ⟨hp, hnx⟩ := h A x B rfl
    refine ⟨(hprev x (by simp)).trans hp, ?_⟩
    rw [hnext x (by simp), hnx]
    cases B with
    | nil => simp
    | cons w B =>
      have hx : x ∉ w :: B := (List.nodup_cons.mp (List.nodup_append.mp hn).2.1).1
      rw [List.getLast?_append_cons, List.getLast?_cons_cons, if_neg (getLast?_ne hx)]
      rfl

/-! ## Unlinking a node -/

section Unlink
variable {P Q : List ι}

/-- **Unlink a node**: its neighbours are linked to each other. -/
theorem Linked.unlink (h : Linked prev next (P ++ x :: Q)) (hn : (P ++ x :: Q).Nodup)
    (hprev : ∀ y ∈ P ++ Q, prev' y = if prev y = some x then prev x else prev y)
    (hnext : ∀ y ∈ P ++ Q, next' y = if next y = some x then next x else next y) :
    Linked prev' next' (P ++ Q) := by
  intro A y B hsplit
  obtain ⟨hpx, hnx⟩ := h P x Q rfl
  obtain ⟨hxP, hxQ⟩ := notMem_of_nodup hn
  have hy : y ∈ P ++ Q := by simp [hsplit]
  rw [hprev y hy, hnext y hy]
  -- the node `y` comes behind `x` or before it
  have hcases : (∃ C, A = P ++ C ∧ Q = C ++ y :: B) ∨ ∃ C, P = A ++ y :: C ∧ B = C ++ Q := by
    rcases List.append_eq_append_iff.mp hsplit with ⟨C, hA, hQ⟩ | ⟨C, hP, hB⟩
    · exact .inl ⟨C, hA, hQ⟩
    · cases C with
      | nil => exact .inl ⟨[], by simpa using hP.symm, hB.symm⟩
      | cons w C =>
        obtain ⟨rfl, rfl⟩ := List.cons_eq_cons.mp hB
        exact .inr ⟨C, hP, rfl⟩
  rcases hcases with ⟨C, rfl, rfl⟩ | ⟨C, rfl, rfl⟩
  · obtain ⟨hpy, hny⟩ := h (P ++ x :: C) y B (by simp)
    have hxC : x ∉ C := fun hx => hxQ (by simp [hx])
    have hxB : x ∉ B := fun hx => hxQ (by simp [hx])
    rw [hpy, hny, hpx, if_neg (head?_ne hxB)]
    cases C with
    | nil => simp
    | cons w C =>
      rw [List.getLast?_append_cons, List.getLast?_cons_cons, if_neg (getLast?_ne hxC),
        List.getLast?_append_cons]
      exact ⟨rfl, rfl⟩
  · obtain ⟨hpy, hny⟩ := h A y (C ++ x :: Q) (by simp)
    have hxA : x ∉ A := fun hx => hxP (by simp [hx])
    have hxC : x ∉ C := fun hx => hxP (by simp [hx])
    rw [hpy, hny, hnx, if_neg (getLast?_ne hxA)]
    cases C with
    | nil => simp
    | cons w C =>
      rw [List.cons_append, List.head?_cons, if_neg fun hw => hxC (by simp_all)]
      exact ⟨rfl, rfl⟩

theorem Linked.head?_unlink (h : Linked prev next (P ++ x :: Q)) (hn : (P ++ x :: Q).Nodup) :
    (P ++ Q).head? = if (P ++ x :: Q).head? = some x then next x else (P ++ x :: Q).head? := by
  rw [(h P x Q rfl).2]
  cases P with
  | nil => simp
  | cons y P =>
    rw [List.cons_append, List.cons_append, List.head?_cons, List.head?_cons, if_neg]
    exact fun hy => (notMem_of_nodup hn).1 (by simp_all)

theorem Linked.getLast?_unlink (h : Linked prev next (P ++ x :: Q)) (hn : (P ++ x :: Q).Nodup) :
    (P ++ Q).getLast? =
      if (P ++ x :: Q).getLast? = some x then prev x else (P ++ x :: Q).getLast? := by
  rw [(h P x Q rfl).1, List.getLast?_append_cons]
  cases Q with
  | nil => simp
  | cons y Q =>
    rw [List.getLast?_append_cons, List.getLast?_cons_cons,
      if_neg (getLast?_ne (notMem_of_nodup hn).2)]

end Unlink

end LinkedList
