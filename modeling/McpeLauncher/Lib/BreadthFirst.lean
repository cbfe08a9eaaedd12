import Mathlib.Algebra.BigOperators.Group.Finset.Basic
import Mathlib.Algebra.Order.BigOperators.Group.Finset
import Mathlib.Logic.Relation

/-!
# Breadth-first walks

A walk through a graph with a queue. A node that is taken from the queue for the first time is
visited, and its children are put at the end of the queue unless the node is skipped. Whatever is
skipped, the walk ends, and the nodes are visited in the order of their distances, each once.
-/

namespace BreadthFirst

variable {ν : Type _} {children : ν → List ν} {passable passable' : ν → Prop} {root : ν}

/-! ## Orders -/

/-- A way of the length `k` from the root, through nodes that can be passed. -/
inductive Way (children : ν → List ν) (passable : ν → Prop) (root : ν) : Nat → ν → Prop
  | root : Way children passable root 0 root
  | child {k v w} (h : Way children passable root k v) (hv : passable v) (hw : w ∈ children v) :
    Way children passable root (k + 1) w

/-- The nodes that ways lead to, each once, the nearest first. -/
structure Order (children : ν → List ν) (passable : ν → Prop) (root : ν) (order : List ν) : Prop where
  nodup : order.Nodup
  mem_iff : ∀ v, v ∈ order ↔ ∃ k, Way children passable root k v
  nearest : order.Pairwise fun v w =>
    ∀ k, Way children passable root k w → ∃ l ≤ k, Way children passable root l v

variable {v w : ν} {k l : Nat}

theorem Way.mono (h : Way children passable root k v) (hpassable : ∀ v, passable v → passable' v) :
    Way children passable' root k v := by
  induction h with
  | root => exact .root
  | child _ hv hw ih => exact .child ih (hpassable _ hv) hw

/-- Whether a node can be passed matters for those only that ways lead to. -/
theorem Order.congr {order : List ν} (h : Order children passable root order)
    (hpassable : ∀ v ∈ order, (passable v ↔ passable' v)) : Order children passable' root order := by
  have hway (k : Nat) (v : ν) :
      Way children passable root k v ↔ Way children passable' root k v := by
    constructor <;> intro hv
    · induction hv with
      | root => exact .root
      | child hway hv hw ih => exact .child ih ((hpassable _ ((h.mem_iff _).mpr ⟨_, hway⟩)).mp hv) hw
    · induction hv with
      | root => exact .root
      | child _ hv hw ih => exact .child ih ((hpassable _ ((h.mem_iff _).mpr ⟨_, ih⟩)).mpr hv) hw
  refine ⟨h.nodup, fun v => ?_, ?_⟩
  · simp only [h.mem_iff, hway]
  · simpa only [hway] using h.nearest

/-- The root comes first. -/
theorem Order.head?_eq {order : List ν} (h : Order children passable root order) :
    order.head? = some root := by
  have hroot : root ∈ order := (h.mem_iff root).mpr ⟨0, .root⟩
  match order with
  | [] => cases hroot
  | v :: order =>
    rcases List.mem_cons.mp hroot with rfl | hroot
    · rfl
    · obtain ⟨l, hl, hway⟩ := List.rel_of_pairwise_cons h.nearest hroot 0 .root
      obtain rfl := Nat.le_zero.mp hl
      cases hway
      rfl

/-! ## Walks -/

/-- The queue and the nodes that have been visited, each with the length of the way to it, and the
nodes that have been skipped. -/
structure State (ν : Type _) where
  queue : List (ν × Nat)
  visited : List (ν × Nat)
  skipped : List ν

namespace State

def start (root : ν) : State ν := ⟨[(root, 0)], [], []⟩

/-- The nodes in the order of the visits. -/
def order (s : State ν) : List ν := s.visited.map Prod.fst

/-- The nodes whose children have been put into the queue. -/
def Passed (s : State ν) (v : ν) : Prop := v ∈ s.order ∧ v ∉ s.skipped

end State

theorem State.order_concat (q vis : List (ν × Nat)) (v : ν) (k : Nat) (sk : List ν) :
    State.order ⟨q, vis ++ [(v, k)], sk⟩ = vis.map Prod.fst ++ [v] :=
  List.map_append

theorem map_fst_queue (q : List (ν × Nat)) (vs : List ν) (k : Nat) :
    (q ++ vs.map (·, k)).map Prod.fst = q.map Prod.fst ++ vs := by
  rw [List.map_append, List.map_map]
  exact congrArg _ (List.map_id _)

/-- What happens with a node of the queue. -/
inductive Step (children : ν → List ν) : State ν → State ν → Prop
  | again {v k q vis sk} (h : v ∈ vis.map Prod.fst) :
    Step children ⟨(v, k) :: q, vis, sk⟩ ⟨q, vis, sk⟩
  | visit {v k q vis sk} (h : v ∉ vis.map Prod.fst) :
    Step children ⟨(v, k) :: q, vis, sk⟩
      ⟨q ++ (children v).map (·, k + 1), vis ++ [(v, k)], sk⟩
  | skip {v k q vis sk} (h : v ∉ vis.map Prod.fst) :
    Step children ⟨(v, k) :: q, vis, sk⟩ ⟨q, vis ++ [(v, k)], sk ++ [v]⟩

abbrev Steps (children : ν → List ν) : State ν → State ν → Prop :=
  Relation.ReflTransGen (Step children)

/-- The invariant of the walk. -/
structure Inv (children : ν → List ν) (root : ν) (s : State ν) : Prop where
  nodup : s.order.Nodup
  skipped : ∀ v ∈ s.skipped, v ∈ s.order
  sorted : ((s.visited ++ s.queue).map Prod.snd).Pairwise (· ≤ ·)
  narrow : ∀ x ∈ s.queue, ∀ y ∈ s.queue, y.2 ≤ x.2 + 1
  way : ∀ x ∈ s.visited ++ s.queue, Way children s.Passed root x.2 x.1
  root_mem : (root, 0) ∈ s.visited ++ s.queue
  closed : ∀ x ∈ s.visited, x.1 ∉ s.skipped → ∀ w ∈ children x.1,
    ∃ l ≤ x.2 + 1, (w, l) ∈ s.visited ++ s.queue

theorem Inv.start (root : ν) : Inv children root (State.start root) where
  nodup := .nil
  skipped _ h := absurd h List.not_mem_nil
  sorted := List.pairwise_singleton ..
  narrow x hx y hy := by
    obtain rfl := List.mem_singleton.mp hx
    obtain rfl := List.mem_singleton.mp hy
    exact Nat.zero_le _
  way x hx := by
    obtain rfl := List.mem_singleton.mp hx
    exact .root
  root_mem := .head _
  closed _ h := absurd h List.not_mem_nil

section
variable {q vis : List (ν × Nat)} {sk : List ν}

/-- What has been visited is not farther than what is taken from the queue. -/
theorem Inv.le_head (h : Inv children root ⟨(v, k) :: q, vis, sk⟩) {x : ν × Nat} (hx : x ∈ vis) :
    x.2 ≤ k := by
  have hsorted := h.sorted
  rw [List.map_append, List.pairwise_append] at hsorted
  exact hsorted.2.2 x.2 (List.mem_map_of_mem hx) k (.head _)

/-- A node that has been visited is known without the queue. -/
theorem Inv.mem_of_again (h : Inv children root ⟨(v, k) :: q, vis, sk⟩)
    (hv : v ∈ vis.map Prod.fst) {x : ν × Nat} (hx : x ∈ vis ++ (v, k) :: q) :
    ∃ l ≤ x.2, (x.1, l) ∈ vis ++ q := by
  rcases List.mem_append.mp hx with hx | hx
  · exact ⟨x.2, le_rfl, List.mem_append_left _ hx⟩
  · rcases List.mem_cons.mp hx with rfl | hx
    · obtain ⟨⟨u, l⟩, hmem, rfl⟩ := List.mem_map.mp hv
      exact ⟨l, h.le_head hmem, List.mem_append_left _ hmem⟩
    · exact ⟨x.2, le_rfl, List.mem_append_right _ hx⟩

theorem Inv.again (h : Inv children root ⟨(v, k) :: q, vis, sk⟩) (hv : v ∈ vis.map Prod.fst) :
    Inv children root ⟨q, vis, sk⟩ where
  nodup := h.nodup
  skipped := h.skipped
  sorted := h.sorted.sublist ((List.sublist_cons_self (v, k) q).append_left vis |>.map Prod.snd)
  narrow x hx y hy := h.narrow x (.tail _ hx) y (.tail _ hy)
  way x hx := h.way x (((List.sublist_cons_self (v, k) q).append_left vis).subset hx)
  root_mem := by
    obtain ⟨l, hl, hmem⟩ := h.mem_of_again hv h.root_mem
    rwa [Nat.le_zero.mp hl] at hmem
  closed x hx hsk w hw := by
    obtain ⟨l, hl, hmem⟩ := h.closed x hx hsk w hw
    obtain ⟨l', hl', hmem⟩ := h.mem_of_again hv hmem
    exact ⟨l', hl'.trans hl, hmem⟩

theorem nodup_order (hnodup : (vis.map Prod.fst).Nodup) (hv : v ∉ vis.map Prod.fst) :
    (State.order ⟨q, vis ++ [(v, k)], sk⟩).Nodup := by
  rw [State.order_concat, ← List.concat_eq_append]
  exact hnodup.concat hv

theorem Inv.skip (h : Inv children root ⟨(v, k) :: q, vis, sk⟩) (hv : v ∉ vis.map Prod.fst) :
    Inv children root ⟨q, vis ++ [(v, k)], sk ++ [v]⟩ where
  nodup := nodup_order h.nodup hv
  skipped u hu := by
    rw [State.order_concat]
    rcases List.mem_append.mp hu with hu | hu
    · exact List.mem_append_left _ (h.skipped u hu)
    · exact List.mem_append_right _ hu
  sorted := by
    rw [List.append_assoc]
    exact h.sorted
  narrow x hx y hy := h.narrow x (.tail _ hx) y (.tail _ hy)
  way x hx := by
    rw [List.append_assoc] at hx
    refine (h.way x hx).mono fun u ⟨hmem, hsk⟩ => ⟨?_, ?_⟩
    · rw [State.order_concat]
      exact List.mem_append_left _ hmem
    · rw [List.mem_append, not_or]
      exact ⟨hsk, fun hu => hv (List.mem_singleton.mp hu ▸ hmem)⟩
  root_mem := by
    rw [List.append_assoc]
    exact h.root_mem
  closed x hx hsk w hw := by
    rw [List.append_assoc]
    rw [List.mem_append, not_or] at hsk
    rcases List.mem_append.mp hx with hx | hx
    · exact h.closed x hx hsk.1 w hw
    · obtain rfl := List.mem_singleton.mp hx
      exact absurd (List.mem_singleton_self v) hsk.2

theorem Inv.visit (h : Inv children root ⟨(v, k) :: q, vis, sk⟩) (hv : v ∉ vis.map Prod.fst) :
    Inv children root ⟨q ++ (children v).map (·, k + 1), vis ++ [(v, k)], sk⟩ := by
  have hknown : (vis ++ [(v, k)]) ++ (q ++ (children v).map (·, k + 1)) =
      (vis ++ (v, k) :: q) ++ (children v).map (·, k + 1) := by
    simp only [List.append_assoc, List.nil_append, List.cons_append]
  have hchild {x : ν × Nat} (hx : x ∈ (children v).map (·, k + 1)) :
      x.1 ∈ children v ∧ x.2 = k + 1 := by
    obtain ⟨w, hw, rfl⟩ := List.mem_map.mp hx
    exact ⟨hw, rfl⟩
  have hqueue {x : ν × Nat} (hx : x ∈ q) : k ≤ x.2 ∧ x.2 ≤ k + 1 := by
    have hsorted := (List.pairwise_append.mp (List.map_append ▸ h.sorted)).2.1
    exact ⟨List.rel_of_pairwise_cons hsorted (List.mem_map_of_mem hx),
      h.narrow _ (.head _) x (.tail _ hx)⟩
  refine ⟨nodup_order h.nodup hv, fun u hu => ?_, ?_, fun x hx y hy => ?_, ?_, ?_, ?_⟩
  · rw [State.order_concat]
    exact List.mem_append_left _ (h.skipped u hu)
  · rw [hknown, List.map_append, List.pairwise_append]
    refine ⟨h.sorted, ?_, fun a ha b hb => ?_⟩
    · rw [List.map_map]
      exact List.pairwise_map.mpr (List.pairwise_of_forall fun _ _ => le_rfl)
    · obtain ⟨x, hx, rfl⟩ := List.mem_map.mp ha
      obtain ⟨y, hy, rfl⟩ := List.mem_map.mp hb
      rw [(hchild hy).2]
      rcases List.mem_append.mp hx with hx | hx
      · exact (h.le_head hx).trans (Nat.le_succ k)
      · exact h.narrow _ (.head _) x hx
  · rcases List.mem_append.mp hx with hx | hx <;> rcases List.mem_append.mp hy with hy | hy
    · exact h.narrow x (.tail _ hx) y (.tail _ hy)
    · rw [(hchild hy).2]
      exact Nat.succ_le_succ (hqueue hx).1
    · rw [(hchild hx).2]
      exact (hqueue hy).2.trans (Nat.le_succ _)
    · rw [(hchild hx).2, (hchild hy).2]
      exact Nat.le_succ _
  · rw [hknown]
    intro x hx
    have hmono (u : ν) (hu : State.Passed ⟨(v, k) :: q, vis, sk⟩ u) :
        State.Passed ⟨q ++ (children v).map (·, k + 1), vis ++ [(v, k)], sk⟩ u := by
      refine ⟨?_, hu.2⟩
      rw [State.order_concat]
      exact List.mem_append_left _ hu.1
    rcases List.mem_append.mp hx with hx | hx
    · exact (h.way x hx).mono hmono
    · obtain ⟨hmem, hdepth⟩ := hchild hx
      rw [hdepth]
      refine .child ((h.way (v, k) (List.mem_append_right _ (.head _))).mono hmono) ?_ hmem
      refine ⟨?_, fun hsk => hv (h.skipped v hsk)⟩
      rw [State.order_concat]
      exact List.mem_append_right _ (.head _)
  · rw [hknown]
    exact List.mem_append_left _ h.root_mem
  · rw [hknown]
    intro x hx hsk w hw
    rcases List.mem_append.mp hx with hx | hx
    · obtain ⟨l, hl, hmem⟩ := h.closed x hx hsk w hw
      exact ⟨l, hl, List.mem_append_left _ hmem⟩
    · obtain rfl := List.mem_singleton.mp hx
      exact ⟨k + 1, le_rfl, List.mem_append_right _ (List.mem_map_of_mem hw)⟩

end

theorem Inv.step {s t : State ν} (h : Inv children root s) (hstep : Step children s t) :
    Inv children root t := by
  cases hstep with
  | again hv => exact h.again hv
  | visit hv => exact h.visit hv
  | skip hv => exact h.skip hv

theorem Inv.steps {s t : State ν} (h : Inv children root s) (hsteps : Steps children s t) :
    Inv children root t := by
  induction hsteps with
  | refl => exact h
  | tail _ hstep ih => exact ih.step hstep

/-- What a way leads to is known, or there is still something as near in the queue. -/
theorem Inv.known_of_way {s : State ν} (h : Inv children root s)
    (hway : Way children (· ∉ s.skipped) root k v) :
    (∃ l ≤ k, (v, l) ∈ s.visited) ∨ ∃ x ∈ s.queue, x.2 ≤ k := by
  have hsplit {u : ν} {l m : Nat} (hl : l ≤ m) (hmem : (u, l) ∈ s.visited ++ s.queue) :
      (∃ l ≤ m, (u, l) ∈ s.visited) ∨ ∃ x ∈ s.queue, x.2 ≤ m := by
    rcases List.mem_append.mp hmem with hmem | hmem
    · exact .inl ⟨l, hl, hmem⟩
    · exact .inr ⟨_, hmem, hl⟩
  induction hway with
  | root => exact hsplit le_rfl h.root_mem
  | child _ hv hw ih =>
    rcases ih with ⟨l, hl, hmem⟩ | ⟨x, hx, hle⟩
    · obtain ⟨l', hl', hmem'⟩ := h.closed _ hmem hv _ hw
      exact hsplit (hl'.trans (Nat.succ_le_succ hl)) hmem'
    · exact .inr ⟨x, hx, hle.trans (Nat.le_succ _)⟩

/-- **The order of the visits**, when the walk has ended. -/
theorem Inv.order {s : State ν} (h : Inv children root s) (hend : s.queue = []) :
    Order children (· ∉ s.skipped) root s.order := by
  have hway {x : ν × Nat} (hx : x ∈ s.visited) : Way children (· ∉ s.skipped) root x.2 x.1 :=
    (h.way x (List.mem_append_left _ hx)).mono fun _ hu => hu.2
  have hvisited {k : Nat} {v : ν} (hv : Way children (· ∉ s.skipped) root k v) :
      ∃ l ≤ k, (v, l) ∈ s.visited := by
    rcases h.known_of_way hv with hknown | ⟨x, hx, -⟩
    · exact hknown
    · rw [hend] at hx
      exact absurd hx List.not_mem_nil
  have hsorted := h.sorted
  rw [hend, List.append_nil, List.pairwise_map] at hsorted
  have hnodup := h.nodup
  refine ⟨hnodup, fun v => ⟨fun hv => ?_, fun ⟨k, hk⟩ => ?_⟩, ?_⟩
  · obtain ⟨x, hx, rfl⟩ := List.mem_map.mp hv
    exact ⟨x.2, hway hx⟩
  · obtain ⟨l, -, hmem⟩ := hvisited hk
    exact List.mem_map_of_mem hmem
  · rw [State.order, List.pairwise_map]
    refine hsorted.imp_of_mem fun {x y} hx hy hle k hk => ?_
    obtain ⟨l, hl, hmem⟩ := hvisited hk
    have heq : (y.1, l) = y := List.inj_on_of_nodup_map hnodup hmem hy rfl
    exact ⟨x.2, hle.trans ((congrArg Prod.snd heq).symm.le.trans hl), hway hx⟩

/-! ## Ends -/

/-- The nodes of the queue are in `U`, and so are their children. -/
def State.Within (children : ν → List ν) (U : Finset ν) (s : State ν) : Prop :=
  (∀ x ∈ s.queue, x.1 ∈ U) ∧ ∀ v ∈ U, ∀ w ∈ children v, w ∈ U

variable {U : Finset ν} {s t : State ν}

theorem Step.within (hstep : Step children s t) (h : s.Within children U) :
    t.Within children U := by
  refine ⟨?_, h.2⟩
  cases hstep with
  | again => exact fun x hx => h.1 x (.tail _ hx)
  | skip => exact fun x hx => h.1 x (.tail _ hx)
  | visit =>
    intro x hx
    rcases List.mem_append.mp hx with hx | hx
    · exact h.1 x (.tail _ hx)
    · obtain ⟨w, hw, rfl⟩ := List.mem_map.mp hx
      exact h.2 _ (h.1 _ (.head _)) w hw

section
variable [DecidableEq ν]

/-- What the walk still has to do among the nodes of `U`. -/
def State.potential (children : ν → List ν) (U : Finset ν) (s : State ν) : Nat :=
  s.queue.length + ∑ v ∈ U \ s.order.toFinset, (children v).length

theorem sum_sdiff_concat {L : List ν} (hv : v ∉ L) (hU : v ∈ U) (f : ν → Nat) :
    ∑ u ∈ U \ L.toFinset, f u = f v + ∑ u ∈ U \ (L ++ [v]).toFinset, f u := by
  have hset : U \ (L ++ [v]).toFinset = (U \ L.toFinset).erase v := by
    ext u
    simp only [List.toFinset_append, Finset.mem_sdiff, Finset.mem_union, Finset.mem_erase,
      List.mem_toFinset, List.mem_singleton, not_or]
    tauto
  rw [hset, Finset.add_sum_erase _ f]
  exact Finset.mem_sdiff.mpr ⟨hU, fun h => hv (List.mem_toFinset.mp h)⟩

/-- Every step of the walk leaves less to do. -/
theorem Step.potential_lt (hstep : Step children s t) (h : s.Within children U) :
    t.potential children U < s.potential children U := by
  cases hstep with
  | again => exact Nat.add_lt_add_right (Nat.lt_succ_self _) _
  | @visit v k q vis sk hv =>
    have hsum := sum_sdiff_concat hv (h.1 _ (.head _)) fun u => (children u).length
    simp only [State.potential, State.order, List.map_append, List.map_singleton,
      List.length_append, List.length_map, List.length_cons] at hsum ⊢
    omega
  | @skip v k q vis sk hv =>
    have hsum := sum_sdiff_concat hv (h.1 _ (.head _)) fun u => (children u).length
    simp only [State.potential, State.order, List.map_append, List.map_singleton,
      List.length_cons] at hsum ⊢
    omega

theorem potential_start (U : Finset ν) (root : ν) :
    (State.start root).potential children U = 1 + ∑ v ∈ U, (children v).length := by
  simp [State.potential, State.start, State.order]

end
end BreadthFirst
