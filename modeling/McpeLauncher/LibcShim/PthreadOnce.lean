import Mathlib.Logic.Function.Basic

/-!
# One-time initialisation

`shim::pthread_once` keeps three states in the control word: 0 before the routine, 1 while it runs,
and 2 after it. A step is a statement of one of the threads, of which there may be any number, and
each thread may call again when its call has returned.
-/

namespace McpeLauncher.LibcShim

/-- Where a thread is in `pthread_once`. -/
inductive OncePc
  /-- Not in a call. -/
  | idle
  /-- `atomic_compare_exchange_strong_explicit` -/
  | exchange
  /-- `routine()` is next. -/
  | call
  | routine
  /-- `atomic_store_explicit(acontrol, 2)` -/
  | store
  /-- `if (c == 2)`, where `c` is what the exchange has found. -/
  | failed (c : Int32)
  /-- `while (atomic_load_explicit(acontrol) == 1)` -/
  | spin
  | leave
  deriving DecidableEq

inductive OnceEvent (ι : Type)
  | started (i : ι)
  | finished (i : ι)
  | returned (i : ι)
  deriving DecidableEq

/-- The control word, the threads, how many calls there were, and what has happened to the routines
and calls, each known by its thread. -/
structure Once (ι : Type) where
  control : Int32
  pcs : ι → OncePc
  calls : Nat
  log : List (OnceEvent ι)

namespace Once

variable {ι : Type}

def init : Once ι where
  control := 0
  pcs _ := .idle
  calls := 0
  log := []

variable [DecidableEq ι]

def goto (s : Once ι) (i : ι) (pc : OncePc) : Once ι :=
  { s with pcs := Function.update s.pcs i pc }

def record (s : Once ι) (e : OnceEvent ι) : Once ι := { s with log := s.log ++ [e] }

/-- The next statement of a thread. -/
def step (s : Once ι) (i : ι) : Once ι :=
  match s.pcs i with
  | .idle => { s.goto i .exchange with calls := s.calls + 1 }
  | .exchange =>
    if s.control = 0 then { s.goto i .call with control := 1 } else s.goto i (.failed s.control)
  | .call => (s.goto i .routine).record (.started i)
  | .routine => (s.goto i .store).record (.finished i)
  | .store => { s.goto i .leave with control := 2 }
  | .failed c => if c = 2 then s.goto i .leave else s.goto i .spin
  | .spin => if s.control = 1 then s else s.goto i .leave
  | .leave => (s.goto i .idle).record (.returned i)

/-- One routine has run, and then calls have returned. -/
def Finished (log : List (OnceEvent ι)) : Prop :=
  ∃ w, ∃ calls : List ι, log = .started w :: .finished w :: calls.map .returned

/-- How far the thread that runs the routine is, with what has happened. -/
inductive Progress (w : ι) : OncePc → List (OnceEvent ι) → Prop
  | call : Progress w .call []
  | routine : Progress w .routine [.started w]
  | store : Progress w .store [.started w, .finished w]

/-- Where a thread can be before the exchange of the first one. -/
def Early (pc : OncePc) : Prop := pc = .idle ∨ pc = .exchange

/-- Where another thread can be while the routine runs. -/
def Waiting (pc : OncePc) : Prop := Early pc ∨ pc = .failed 1 ∨ pc = .spin

/-- Where a thread can be after the routine. -/
def Late (pc : OncePc) : Prop := Waiting pc ∨ pc = .failed 2 ∨ pc = .leave

/-- The control word says how far the winner of the exchange is. -/
inductive Inv (s : Once ι) : Prop
  | fresh (control : s.control = 0) (log : s.log = []) (pcs : ∀ i, Early (s.pcs i))
      (calls : (∀ i, s.pcs i = .idle) → s.calls = 0)
  | running (w : ι) (control : s.control = 1) (winner : Progress w (s.pcs w) s.log)
      (pcs : ∀ i, i ≠ w → Waiting (s.pcs i))
  | done (control : s.control = 2) (log : Finished s.log) (pcs : ∀ i, Late (s.pcs i))

omit [DecidableEq ι] in
theorem inv_init : Inv (init : Once ι) :=
  .fresh rfl rfl (fun _ => .inl rfl) fun _ => rfl

variable {s : Once ι} {i w : ι} {pc : OncePc}

theorem goto_self : (s.goto i pc).pcs i = pc := Function.update_self ..

theorem goto_of_ne {j : ι} (h : j ≠ i) : (s.goto i pc).pcs j = s.pcs j :=
  Function.update_of_ne h ..

/-- What holds of all threads holds after one of them has moved to such a place. -/
theorem forall_goto {P : ι → OncePc → Prop} (hi : P i pc) (h : ∀ j, j ≠ i → P j (s.pcs j)) (j : ι) :
    P j ((s.goto i pc).pcs j) :=
  (Function.forall_update_iff s.pcs P).mpr ⟨hi, h⟩ j

/-- Before the routine, a thread calls or wins the exchange. -/
theorem step_fresh (control : s.control = 0) (log : s.log = []) (pcs : ∀ i, Early (s.pcs i)) :
    Inv (s.step i) := by
  rcases pcs i with hpc | hpc
  · simp only [step, hpc]
    refine .fresh control log ?_ fun h => ?_
    · exact forall_goto (P := fun _ pc => Early pc) (.inr rfl) fun j _ => pcs j
    · exact nomatch goto_self.symm.trans (h i)
  · simp only [step, hpc, control]
    refine .running i rfl ?_ fun j hj => ?_
    · show Progress i ((s.goto i .call).pcs i) s.log
      rw [goto_self, log]
      exact .call
    · show Waiting ((s.goto i .call).pcs j)
      rw [goto_of_ne hj]
      exact .inl (pcs j)

/-- The thread that has won goes on with the routine, which it ends with the store. -/
theorem step_winner (control : s.control = 1) (winner : Progress w (s.pcs w) s.log)
    (pcs : ∀ i, i ≠ w → Waiting (s.pcs i)) : Inv (s.step w) := by
  have hothers : ∀ pc j, j ≠ w → Waiting ((s.goto w pc).pcs j) := by
    intro pc j hj
    rw [goto_of_ne hj]
    exact pcs j hj
  generalize hpc : s.pcs w = pc at winner
  generalize hlog : s.log = log at winner
  cases winner with
  | call =>
    simp only [step, hpc]
    refine .running w control ?_ (hothers _)
    show Progress w ((s.goto w .routine).pcs w) (s.log ++ [_])
    rw [goto_self, hlog]
    exact .routine
  | routine =>
    simp only [step, hpc]
    refine .running w control ?_ (hothers _)
    show Progress w ((s.goto w .store).pcs w) (s.log ++ [_])
    rw [goto_self, hlog]
    exact .store
  | store =>
    simp only [step, hpc]
    refine .done rfl ⟨w, [], hlog⟩ ?_
    exact forall_goto (P := fun _ pc => Late pc) (.inr (.inr rfl)) fun j hj => .inl (pcs j hj)

/-- The others wait. -/
theorem step_waiting (control : s.control = 1) (winner : Progress w (s.pcs w) s.log)
    (pcs : ∀ i, i ≠ w → Waiting (s.pcs i)) (hi : i ≠ w) : Inv (s.step i) := by
  have hgoto : ∀ pc, Waiting pc → Inv (s.goto i pc) := by
    intro pc hpc
    refine .running w control ?_ fun j hj => ?_
    · rw [goto_of_ne (Ne.symm hi)]
      exact winner
    · exact forall_goto (P := fun j pc => j ≠ w → Waiting pc) (fun _ => hpc) (fun j _ => pcs j) j hj
  rcases pcs i hi with (hpc | hpc) | hpc | hpc
  · simp only [step, hpc]
    refine .running w control ?_ fun j hj => ?_
    · show Progress w ((s.goto i .exchange).pcs w) s.log
      rw [goto_of_ne (Ne.symm hi)]
      exact winner
    · exact forall_goto (P := fun j pc => j ≠ w → Waiting pc) (fun _ => .inl (.inr rfl))
        (fun j _ => pcs j) j hj
  · have hne : (1 : Int32) ≠ 0 := by decide
    simp only [step, hpc, control, if_neg hne]
    exact hgoto _ (.inr (.inl rfl))
  · have hne : (1 : Int32) ≠ 2 := by decide
    simp only [step, hpc, if_neg hne]
    exact hgoto _ (.inr (.inr rfl))
  · simp only [step, hpc, control, if_true]
    exact .running w control winner pcs

/-- After the routine, nobody starts another one. -/
theorem step_done (control : s.control = 2) (log : Finished s.log) (pcs : ∀ i, Late (s.pcs i)) :
    Inv (s.step i) := by
  have hgoto : ∀ pc, Late pc → ∀ j, Late ((s.goto i pc).pcs j) := by
    intro pc hpc
    exact forall_goto (P := fun _ pc => Late pc) hpc fun j _ => pcs j
  rcases pcs i with ((hpc | hpc) | hpc | hpc) | hpc | hpc
  · simp only [step, hpc]
    exact .done control log (hgoto _ (.inl (.inl (.inr rfl))))
  · have hne : (2 : Int32) ≠ 0 := by decide
    simp only [step, hpc, control, if_neg hne]
    exact .done control log (hgoto _ (.inr (.inl rfl)))
  · have hne : (1 : Int32) ≠ 2 := by decide
    simp only [step, hpc, if_neg hne]
    exact .done control log (hgoto _ (.inl (.inr (.inr rfl))))
  · have hne : (2 : Int32) ≠ 1 := by decide
    simp only [step, hpc, control, if_neg hne]
    exact .done control log (hgoto _ (.inr (.inr rfl)))
  · simp only [step, hpc, if_true]
    exact .done control log (hgoto _ (.inr (.inr rfl)))
  · simp only [step, hpc]
    obtain ⟨w, calls, hlog⟩ := log
    refine .done control ⟨w, calls ++ [i], ?_⟩ (hgoto _ (.inl (.inl (.inl rfl))))
    show s.log ++ [_] = _
    rw [hlog, List.map_append]
    rfl

theorem Inv.step (h : Inv s) (i : ι) : Inv (s.step i) := by
  cases h with
  | fresh control log pcs calls => exact step_fresh control log pcs
  | running w control winner pcs =>
    by_cases hi : i = w
    · rw [hi]
      exact step_winner control winner pcs
    · exact step_waiting control winner pcs hi
  | done control log pcs => exact step_done control log pcs

end Once

end McpeLauncher.LibcShim
