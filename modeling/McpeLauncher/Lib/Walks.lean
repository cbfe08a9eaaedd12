import Mathlib.Data.Fintype.Pigeonhole

/-!
# Walks of a partial step function

A loop whose body leads from one state to the next, or ends. It ends exactly if the walk comes to a
state without a step; in a bounded set of states it does unless it comes to one of them twice.
-/

namespace Walks

variable {σ : Type _} (step : σ → Option σ)

/-- The state in which the loop ends; none if it has not ended yet. -/
def finish : Nat → σ → Option σ
  | 0, _ => none
  | fuel + 1, s =>
    match step s with
    | none => some s
    | some s' => finish fuel s'

/-- The walk from `s` comes to `t`. -/
inductive Comes : σ → σ → Prop
  | here (s : σ) : Comes s s
  | step {s t u : σ} (h : step s = some t) (hrest : Comes t u) : Comes s u

variable {step} {s t u : σ}

theorem Comes.trans (h : Comes step s t) (h' : Comes step t u) : Comes step s u := by
  induction h with
  | here => exact h'
  | step hs _ ih => exact .step hs (ih h')

theorem Comes.tail (h : Comes step s t) (ht : step t = some u) : Comes step s u :=
  h.trans (.step ht (.here u))

/-- An invariant of the steps holds wherever the walk comes to. -/
theorem Comes.inv {I : σ → Prop} (hstep : ∀ s t, I s → step s = some t → I t) (hs : I s)
    (h : Comes step s t) : I t := by
  induction h with
  | here => exact hs
  | step hst _ ih => exact ih (hstep _ _ hs hst)

/-- What holds of a state and of everything that the walk comes to behind its step holds of
everything that it comes to. -/
theorem Comes.forall_of_step {P : σ → Prop} (hst : step s = some t) (hs : P s)
    (h : ∀ u, Comes step t u → P u) : ∀ u, Comes step s u → P u := by
  intro u hu
  cases hu with
  | here => exact hs
  | step hst' hrest =>
    cases hst'.symm.trans hst
    exact h u hrest

/-- There is one walk only: from a state on the way it goes on to where it ends. -/
theorem Comes.to_end (h : Comes step s t) (hu : Comes step s u) (hend : step u = none) :
    Comes step t u := by
  induction h with
  | here => exact hu
  | step hst _ ih =>
    cases hu with
    | here => cases hst.symm.trans hend
    | step hst' hrest =>
      cases hst.symm.trans hst'
      exact ih hrest

theorem Comes.eq_of_end (h : Comes step s t) (hu : Comes step s u) (ht : step t = none)
    (hend : step u = none) : t = u := by
  cases h.to_end hu hend with
  | here => rfl
  | step hst => cases hst.symm.trans ht

theorem comes_of_finish {fuel : Nat} (h : finish step fuel s = some t) :
    Comes step s t ∧ step t = none := by
  induction fuel generalizing s with
  | zero => cases h
  | succ fuel ih =>
    rw [finish] at h
    split at h
    · rename_i hend
      cases h
      exact ⟨.here _, hend⟩
    · rename_i hst
      obtain ⟨hcomes, hend⟩ := ih h
      exact ⟨.step hst hcomes, hend⟩

theorem Comes.finish (h : Comes step s t) (hend : step t = none) :
    ∃ fuel, finish step fuel s = some t := by
  induction h with
  | here => exact ⟨1, by rw [Walks.finish, hend]⟩
  | step hst _ ih =>
    obtain ⟨fuel, hfuel⟩ := ih hend
    exact ⟨fuel + 1, by rw [Walks.finish, hst]; exact hfuel⟩

/-- In a set of states that have a step into the set the loop never ends. -/
theorem finish_eq_none {C : σ → Prop} (hC : ∀ s, C s → ∃ t, step s = some t ∧ C t) (hs : C s)
    (fuel : Nat) : finish step fuel s = none := by
  induction fuel generalizing s with
  | zero => rfl
  | succ fuel ih =>
    obtain ⟨t, hst, ht⟩ := hC s hs
    rw [finish, hst]
    exact ih ht

/-- A walk that comes back to a state never ends. -/
theorem finish_eq_none_of_cycle (h : step s = some t) (hback : Comes step t s) (fuel : Nat) :
    finish step fuel s = none := by
  refine finish_eq_none (C := fun u => Comes step s u ∧ Comes step u s) ?_
    ⟨.here s, .here s⟩ fuel
  rintro u ⟨hsu, hus⟩
  cases hus with
  | here => exact ⟨t, h, .step h (.here t), hback⟩
  | step hu hrest => exact ⟨_, hu, hsu.tail hu, hrest⟩

/-- A walk in a bounded set of states that comes to none of them twice comes to one without a
step. -/
theorem exists_end {step : Nat → Option Nat} {s N : Nat}
    (hbound : ∀ t, Comes step s t → step t ≠ none → t < N)
    (hrepeat : ∀ t u, Comes step s t → step t = some u → ¬Comes step u t) :
    ∃ t, Comes step s t ∧ step t = none := by
  by_contra hnot
  have hstep (t : { t // Comes step s t }) : ∃ u : { u // Comes step s u }, step t = some u := by
    obtain ⟨u, hu⟩ := Option.ne_none_iff_exists'.mp fun hend => hnot ⟨t, t.2, hend⟩
    exact ⟨⟨u, t.2.tail hu⟩, hu⟩
  choose next hnext using hstep
  let states (n : Nat) : { t // Comes step s t } := next^[n] ⟨s, .here s⟩
  have hsucc (n : Nat) : step (states n) = some (states (n + 1)) := by
    rw [hnext]
    simp only [states, Function.iterate_succ_apply']
  have hlt (n : Nat) : (states n).1 < N :=
    hbound _ (states n).2 fun hend => by cases (hsucc n).symm.trans hend
  have hlater (i k : Nat) : Comes step (states i).1 (states (i + k)).1 := by
    induction k with
    | zero => exact .here _
    | succ k ih => exact ih.tail (hsucc (i + k))
  have hdistinct (i j : Nat) (hij : i < j) : (states i).1 ≠ (states j).1 := by
    intro heq
    obtain ⟨k, rfl⟩ := Nat.exists_eq_add_of_lt hij
    apply hrepeat _ _ (states i).2 (hsucc i)
    rw [heq, Nat.add_right_comm]
    exact hlater (i + 1) k
  obtain ⟨i, j, hne, heq⟩ := Finite.exists_ne_map_eq_of_infinite fun n : Nat =>
    (⟨(states n).1, hlt n⟩ : Fin N)
  have heq : (states i).1 = (states j).1 := congrArg Fin.val heq
  rcases Nat.lt_or_gt_of_ne hne with hij | hij
  · exact hdistinct i j hij heq
  · exact hdistinct j i hij heq.symm

end Walks
