import Mathlib.Data.List.Perm.Subperm
import Mathlib.Data.List.FinRange
import Mathlib.Logic.Function.Basic
import McpeLauncher.Lib.Runs

/-!
# Touch pointers of EGLUT windows

`EGLUTWindow` numbers the fingers on the window: each one gets a slot of `pointerIds`, which holds
the id that EGLUT knows it by, and the number of the slot is reported. When all slots are taken, the
id itself is reported, behind the numbers of the slots. These are the callbacks of the current
window.
-/

namespace McpeLauncher.GameWindow

/-- `pointerIds`, where -1 is a free slot. -/
abbrev PointerIds := Fin 16 → Int

/-- The number that is reported, and the slots with the one that was written, if any. The sum has
the type `size_t` and is converted to `int`. -/
def obtainTouchPointer (pointerIds : PointerIds) (eglutId : Int) :
    Int × PointerIds × Option (Fin 16) :=
  match (List.finRange 16).find? fun i => pointerIds i = eglutId with
  | some i => (i.val, pointerIds, none)
  | none =>
    match (List.finRange 16).find? fun i => pointerIds i = -1 with
    | some i => (i.val, Function.update pointerIds i eglutId, some i)
    | none => (Int.bmod (16 + eglutId) 4294967296, pointerIds, none)

/-- A write behind the array does not reach a slot. -/
def releaseTouchPointer (pointerIds : PointerIds) (ourId : Int) : PointerIds :=
  fun i => if (i.val : Int) = ourId then -1 else pointerIds i

inductive TouchEvent
  | start (id : Int)
  | update (id : Int)
  | finish (id : Int)

/-- The slots, the fingers on the window with the number that was reported when they came, whether
each finger was reported with this number ever since, and the indices that were written. -/
structure EglutTouch where
  pointerIds : PointerIds
  fingers : List (Int × Int)
  kept : Bool
  writes : List Int

namespace EglutTouch

def init : EglutTouch := ⟨fun _ => -1, [], true, []⟩

/-- An event of a finger, and the number that it is reported with. -/
def report (s : EglutTouch) (id : Int) : Int × EglutTouch :=
  let r := obtainTouchPointer s.pointerIds id
  (r.1, { s with
    pointerIds := r.2.1
    writes := (r.2.2.map fun i => (i.val : Int)).toList ++ s.writes })

/-- The start of a finger is the only event before which it is not on the window. -/
def step (s : EglutTouch) : TouchEvent → Option EglutTouch
  | .start id =>
    if 0 ≤ id ∧ id < 2147483648 ∧ id ∉ s.fingers.map Prod.fst then
      let r := s.report id
      some { r.2 with fingers := (id, r.1) :: s.fingers }
    else none
  | .update id =>
    if id ∈ s.fingers.map Prod.fst then
      let r := s.report id
      some { r.2 with kept := s.kept && decide ((id, r.1) ∈ s.fingers) }
    else none
  | .finish id =>
    if id ∈ s.fingers.map Prod.fst then
      let r := s.report id
      some
        { pointerIds := releaseTouchPointer r.2.pointerIds r.1
          fingers := s.fingers.filter (·.1 ≠ id)
          kept := s.kept && decide ((id, r.1) ∈ s.fingers)
          writes := r.1 :: r.2.writes }
    else none

/-- The numbers of the fingers on the window are distinct, each finger keeps its number, and only
slots are written. -/
structure Sound (s : EglutTouch) : Prop where
  distinct : (s.fingers.map Prod.snd).Nodup
  kept : s.kept = true
  inBounds : ∀ i ∈ s.writes, 0 ≤ i ∧ i < 16

/-- A finger comes while there is a free slot. -/
def HasSlot (s : EglutTouch) : TouchEvent → Prop
  | .start _ => s.fingers.length < 16
  | _ => True

/-! ## The invariant -/

/-- The slots that are taken are those of the fingers. -/
structure Inv (s : EglutTouch) : Prop where
  slot : ∀ f ∈ s.fingers, ∃ i : Fin 16, f.2 = i.val ∧ s.pointerIds i = f.1
  owner : ∀ i : Fin 16, s.pointerIds i = -1 ∨ (s.pointerIds i, (i.val : Int)) ∈ s.fingers
  nonneg : ∀ f ∈ s.fingers, 0 ≤ f.1
  nodup : (s.fingers.map Prod.fst).Nodup
  kept : s.kept = true
  inBounds : ∀ i ∈ s.writes, 0 ≤ i ∧ i < 16

theorem inv_init : Inv init where
  slot _ h := absurd h List.not_mem_nil
  owner _ := .inl rfl
  nonneg _ h := absurd h List.not_mem_nil
  nodup := .nil
  kept := rfl
  inBounds _ h := absurd h List.not_mem_nil

variable {s : EglutTouch} {id r : Int}

theorem Inv.sound (h : Inv s) : Sound s where
  distinct := by
    apply List.Nodup.map_on _ h.nodup.of_map
    intro f hf g hg heq
    obtain ⟨i, hi, hfi⟩ := h.slot f hf
    obtain ⟨j, hj, hgj⟩ := h.slot g hg
    have hij : i = j := Fin.ext (by omega)
    exact Prod.ext (by rw [← hfi, ← hgj, hij]) heq
  kept := h.kept
  inBounds := h.inBounds

theorem Inv.number_unique (h : Inv s) {r' : Int} (hr : (id, r) ∈ s.fingers)
    (hr' : (id, r') ∈ s.fingers) : r = r' := by
  have heq := List.inj_on_of_nodup_map h.nodup hr hr' rfl
  exact congrArg Prod.snd heq

theorem Inv.slot_of_eq (h : Inv s) {i : Fin 16} (hid : 0 ≤ id) (hi : s.pointerIds i = id) :
    (id, (i.val : Int)) ∈ s.fingers := by
  rcases h.owner i with hfree | hmem
  · omega
  · exact hi ▸ hmem

/-- A finger on the window is found in its slot. -/
theorem Inv.obtain_of_mem (h : Inv s) (hr : (id, r) ∈ s.fingers) :
    obtainTouchPointer s.pointerIds id = (r, s.pointerIds, none) := by
  obtain ⟨i, -, hi⟩ := h.slot _ hr
  rw [obtainTouchPointer]
  cases hfind : (List.finRange 16).find? fun i => s.pointerIds i = id with
  | none => exact absurd (decide_eq_true hi) (List.find?_eq_none.mp hfind i (List.mem_finRange i))
  | some j =>
    have hj := List.find?_some hfind
    have hmem := h.slot_of_eq (h.nonneg _ hr) (of_decide_eq_true hj)
    rw [h.number_unique hr hmem]

/-- The slots do not suffice only if each one has a finger of its own. -/
theorem Inv.exists_free (h : Inv s) (hlen : s.fingers.length < 16) :
    ∃ i : Fin 16, s.pointerIds i = -1 := by
  by_contra hno
  have howner : ∀ i : Fin 16, (s.pointerIds i, (i.val : Int)) ∈ s.fingers := fun i =>
    (h.owner i).resolve_left fun hi => hno ⟨i, hi⟩
  have hnodup : ((List.finRange 16).map fun i => (s.pointerIds i, (i.val : Int))).Nodup := by
    apply (List.nodup_finRange 16).map
    intro i j hij
    exact Fin.ext (Int.ofNat.inj (congrArg Prod.snd hij))
  have hsub : (List.finRange 16).map (fun i => (s.pointerIds i, (i.val : Int))) ⊆ s.fingers := by
    intro f hf
    obtain ⟨i, -, rfl⟩ := List.mem_map.mp hf
    exact howner i
  have hle := (List.subperm_of_subset hnodup hsub).length_le
  rw [List.length_map, List.length_finRange] at hle
  omega

/-- A new finger gets a free slot. -/
theorem Inv.obtain_of_new (h : Inv s) (hid : 0 ≤ id) (hnew : id ∉ s.fingers.map Prod.fst)
    (hlen : s.fingers.length < 16) :
    ∃ i : Fin 16, s.pointerIds i = -1 ∧
      obtainTouchPointer s.pointerIds id =
        ((i.val : Int), Function.update s.pointerIds i id, some i) := by
  obtain ⟨j, hj⟩ := h.exists_free hlen
  rw [obtainTouchPointer]
  cases hfind : (List.finRange 16).find? fun i => s.pointerIds i = id with
  | some i =>
    have hi := List.find?_some hfind
    have hmem := h.slot_of_eq hid (of_decide_eq_true hi)
    exact absurd (List.mem_map_of_mem hmem) hnew
  | none =>
    cases hfree : (List.finRange 16).find? fun i => s.pointerIds i = -1 with
    | none => exact absurd (decide_eq_true hj) (List.find?_eq_none.mp hfree j (List.mem_finRange j))
    | some i =>
      have hi := List.find?_some hfree
      exact ⟨i, of_decide_eq_true hi, rfl⟩

theorem Inv.start (h : Inv s) (hid : 0 ≤ id) (hnew : id ∉ s.fingers.map Prod.fst)
    (hlen : s.fingers.length < 16) :
    Inv { (s.report id).2 with fingers := (id, (s.report id).1) :: s.fingers } := by
  obtain ⟨i, hfree, hobtain⟩ := h.obtain_of_new hid hnew hlen
  simp only [report, hobtain]
  constructor <;> dsimp only
  · intro f hf
    rcases List.mem_cons.mp hf with rfl | hf
    · exact ⟨i, rfl, Function.update_self ..⟩
    · obtain ⟨j, hj, hfj⟩ := h.slot f hf
      have hpos := h.nonneg f hf
      have hne : j ≠ i := by
        rintro rfl
        omega
      exact ⟨j, hj, by rw [Function.update_of_ne hne, hfj]⟩
  · intro j
    by_cases hj : j = i
    · rw [hj, Function.update_self]
      exact .inr (.head _)
    · rw [Function.update_of_ne hj]
      exact (h.owner j).imp_right (.tail _)
  · intro f hf
    rcases List.mem_cons.mp hf with rfl | hf
    · exact hid
    · exact h.nonneg f hf
  · exact List.nodup_cons.mpr ⟨hnew, h.nodup⟩
  · exact h.kept
  · intro j hj
    rcases List.mem_cons.mp hj with hj | hj
    · have hlt := i.isLt
      have hji : j = (i.val : Int) := hj
      omega
    · exact h.inBounds j hj

/-- A finger moves. -/
theorem Inv.update (h : Inv s) (hr : (id, r) ∈ s.fingers) :
    Inv { (s.report id).2 with kept := s.kept && decide ((id, (s.report id).1) ∈ s.fingers) } := by
  simp only [report, h.obtain_of_mem hr, decide_eq_true hr, Bool.and_true]
  exact ⟨h.slot, h.owner, h.nonneg, h.nodup, h.kept, h.inBounds⟩

/-- A finger leaves, and its slot is free again. -/
theorem Inv.finish (h : Inv s) (hr : (id, r) ∈ s.fingers) :
    Inv { pointerIds := releaseTouchPointer (s.report id).2.pointerIds (s.report id).1
          fingers := s.fingers.filter (·.1 ≠ id)
          kept := s.kept && decide ((id, (s.report id).1) ∈ s.fingers)
          writes := (s.report id).1 :: (s.report id).2.writes } := by
  simp only [report, h.obtain_of_mem hr, decide_eq_true hr, Bool.and_true]
  obtain ⟨k, hrk, hk⟩ := h.slot _ hr
  constructor <;> dsimp only
  · intro f hf
    obtain ⟨hmem, hne⟩ := List.mem_filter.mp hf
    obtain ⟨i, hi, hfi⟩ := h.slot f hmem
    refine ⟨i, hi, ?_⟩
    have hik : (i.val : Int) ≠ r := by
      intro heq
      have : i = k := Fin.ext (by omega)
      exact of_decide_eq_true hne (by rw [← hfi, this, hk])
    rw [releaseTouchPointer, if_neg hik, hfi]
  · intro i
    rw [releaseTouchPointer]
    split
    next => exact .inl rfl
    next hir =>
      refine (h.owner i).imp_right fun hmem => List.mem_filter.mpr ⟨hmem, ?_⟩
      apply decide_eq_true
      intro heq
      have hpair : (id, (i.val : Int)) ∈ s.fingers := heq ▸ hmem
      exact hir (h.number_unique hpair hr)
  · exact fun f hf => h.nonneg f (List.mem_filter.mp hf).1
  · exact h.nodup.sublist (List.filter_sublist.map Prod.fst)
  · exact h.kept
  · intro i hi
    rcases List.mem_cons.mp hi with rfl | hi
    · have := k.isLt
      omega
    · exact h.inBounds i hi

theorem Inv.step (h : Inv s) {e : TouchEvent} {s' : EglutTouch} (hslot : s.HasSlot e)
    (hs : s.step e = some s') : Inv s' := by
  cases e with
  | start id =>
    simp only [EglutTouch.step] at hs
    split at hs
    next hnew =>
      cases hs
      exact h.start hnew.1 hnew.2.2 hslot
    next => exact nomatch hs
  | update id =>
    simp only [EglutTouch.step] at hs
    split at hs
    next hmem =>
      cases hs
      obtain ⟨f, hf, rfl⟩ := List.mem_map.mp hmem
      exact h.update hf
    next => exact nomatch hs
  | finish id =>
    simp only [EglutTouch.step] at hs
    split at hs
    next hmem =>
      cases hs
      obtain ⟨f, hf, rfl⟩ := List.mem_map.mp hmem
      exact h.finish hf
    next => exact nomatch hs

/-- **The numbers are sound** as long as no finger comes when there are sixteen. -/
theorem sound_of_fewFingers (es : List TouchEvent) (hslot : Runs.Meets step HasSlot init es)
    (hs : Runs.run step init es = some s) : Sound s :=
  (hslot.inv_of_run (fun _ _ _ h hc hs => h.step hc hs) inv_init hs).sound

/-- Two fingers, one of which leaves. -/
theorem sound_twoFingers :
    ∃ s, Runs.run step init [.start 7, .start 3, .finish 7] = some s ∧ Sound s := by
  have hmeets : Runs.Meets step HasSlot init [.start 7, .start 3, .finish 7] := by
    refine Runs.Meets.cons ?_ rfl (Runs.Meets.cons ?_ rfl (Runs.Meets.cons trivial rfl trivial))
    · exact Nat.zero_lt_succ 15
    · exact Nat.succ_lt_succ (Nat.zero_lt_succ 14)
  exact ⟨_, rfl, sound_of_fewFingers _ hmeets rfl⟩

/-- The seventeenth finger is reported with a number behind the slots, which is written when it
leaves. -/
def seventeenFingers : List TouchEvent :=
  (List.range 17).map (fun id => .start id) ++ [.finish 16]

theorem not_sound_seventeenFingers :
    ∃ s, Runs.run step init seventeenFingers = some s ∧ ¬Sound s := by
  have hwrite : (Runs.run step init seventeenFingers).any (fun s => 32 ∈ s.writes) = true := by
    decide +kernel
  cases hs : Runs.run step init seventeenFingers with
  | none =>
    rw [hs] at hwrite
    exact nomatch hwrite
  | some s =>
    rw [hs] at hwrite
    refine ⟨s, rfl, fun h => ?_⟩
    have hlt := (h.inBounds 32 (of_decide_eq_true hwrite)).2
    omega

end EglutTouch

end McpeLauncher.GameWindow
