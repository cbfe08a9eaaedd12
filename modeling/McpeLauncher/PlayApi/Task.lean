import Mathlib.Data.List.Basic

/-!
# Tasks of the Play API

A task is called with a success and an error callback, or synchronously. `then` merges two tasks;
in the asynchronous form the second one runs inside the success callback of the first, hence inside
its `try`. `void` is `Unit`, and a task without arguments is called with `()`.
-/

namespace McpeLauncher.PlayApi

/-- An exception. A task catches the ones that are derived from `std::exception`. -/
inductive Exn (E : Type)
  | runtimeError (what : String)
  | std (e : E)
  | other (e : E)
  deriving DecidableEq

def Exn.isStd {E : Type} : Exn E → Bool
  | .runtimeError _ | .std _ => true
  | .other _ => false

/-- What is recorded of a call: the user functions that run, and the callbacks of the caller. -/
inductive Event (E γ : Type)
  | ran (id : Nat)
  | success (v : γ)
  | error (x : Exn E)
  deriving DecidableEq

/-- The state that the user functions share, and the record. -/
structure World (σ E γ : Type) where
  state : σ
  log : List (Event E γ)
  deriving DecidableEq

/-- User code returns or throws, and may change the state. -/
abbrev User (σ E β : Type) := σ → Except (Exn E) β × σ

abbrev Action (σ E γ β : Type) := World σ E γ → Except (Exn E) β × World σ E γ

/-- The tasks. The function of `flatFunction` returns a pointer, `none` for null, and `ret` is the
task that a pointer points to; `id` names a user function in the record. -/
inductive Task (σ E : Type) : Type → Type → Type 1
  | preSet {β : Type} (value : β) : Task σ E Unit β
  | function {α β : Type} (id : Nat) (func : α → User σ E β) : Task σ E α β
  | flatFunction {α β ρ : Type} (id : Nat) (func : α → User σ E (Option ρ))
      (ret : ρ → Task σ E Unit β) : Task σ E α β
  | merged {α β γ : Type} (t1 : Task σ E α β) (t2 : Task σ E β γ) : Task σ E α γ

variable {σ E α β γ δ : Type}

/-- The call of a user function. -/
def runFunc (id : Nat) (func : α → User σ E β) (a : α) : Action σ E γ β := fun w =>
  let (r, state) := func a w.state
  (r, { state, log := w.log ++ [.ran id] })

/-- `try { ... } catch (std::exception& e) { ... }`. -/
def tryCatch (body : Action σ E γ β) (catch_ : Exn E → Action σ E γ Unit)
    (after : β → Action σ E γ Unit) : Action σ E γ Unit := fun w =>
  match body w with
  | (.ok v, w) => after v w
  | (.error x, w) => if x.isStd then catch_ x w else (.error x, w)

namespace Task

/-- The part of `flat_function_task::call` that is inside its `try`. -/
def checkedRet {ρ : Type} (id : Nat) (func : α → User σ E (Option ρ)) (a : α) : Action σ E γ ρ :=
  fun w =>
    match runFunc id func a w with
    | (.ok (some r), w) => (.ok r, w)
    | (.ok none, w) =>
      (.error (.runtimeError "flat_function_task's function must return a valid pointer"), w)
    | (.error x, w) => (.error x, w)

/-- `call` with callbacks. -/
def call : {α β : Type} → Task σ E α β → α → (β → Action σ E γ Unit) →
    (Exn E → Action σ E γ Unit) → Action σ E γ Unit
  | _, _, .preSet value, _, success, _ => success value
  | _, _, .function id func, a, success, error =>
    tryCatch
      (fun w =>
        match runFunc id func a w with
        | (.ok v, w) => success v w
        | (.error x, w) => (.error x, w))
      error (fun _ w => (.ok (), w))
  | _, _, .flatFunction id func ret, a, success, error =>
    tryCatch (checkedRet id func a) error fun r => (ret r).call () success error
  | _, _, .merged t1 t2, a, success, error =>
    t1.call a (fun t => t2.call t success error) (fun x => error x)

/-- `call` without callbacks. Dereferencing a null pointer is undefined. -/
def callSync : {α β : Type} → Task σ E α β → α → World σ E γ →
    Option (Except (Exn E) β × World σ E γ)
  | _, _, .preSet value, _, w => some (.ok value, w)
  | _, _, .function id func, a, w => some (runFunc id func a w)
  | _, _, .flatFunction id func ret, a, w =>
    match runFunc id func a w with
    | (.ok (some r), w) => (ret r).callSync () w
    | (.ok none, _) => none
    | (.error x, w) => some (.error x, w)
  | _, _, .merged t1 t2, a, w =>
    match t1.callSync a w with
    | some (.ok t, w) => t2.callSync t w
    | some (.error x, w) => some (.error x, w)
    | none => none

def thenTask (t : Task σ E α β) (task : Task σ E β δ) : Task σ E α δ := .merged t task

def thenFunction (t : Task σ E α β) (id : Nat) (func : β → User σ E δ) : Task σ E α δ :=
  t.thenTask (.function id func)

def thenFlatFunction {ρ : Type} (t : Task σ E α β) (id : Nat) (func : β → User σ E (Option ρ))
    (ret : ρ → Task σ E Unit δ) : Task σ E α δ :=
  t.thenTask (.flatFunction id func ret)

/-- User functions throw exceptions derived from `std::exception` only, and the function of a
`flat_function_task` returns no null pointer. -/
def WellFormed : {α β : Type} → Task σ E α β → Prop
  | _, _, .preSet _ => True
  | _, _, .function _ func => ∀ a s x, (func a s).1 = .error x → x.isStd
  | _, _, .flatFunction _ func ret =>
    (∀ a s x, (func a s).1 = .error x → x.isStd) ∧ (∀ a s, (func a s).1 ≠ .ok none) ∧
      ∀ r, (ret r).WellFormed
  | _, _, .merged t1 t2 => t1.WellFormed ∧ t2.WellFormed

end Task

/-- The callback never throws. -/
def NoThrow (f : δ → Action σ E γ Unit) : Prop := ∀ v w, ∃ w', f v w = (.ok (), w')

/-- Exactly one of the callbacks, with what the synchronous call returns or throws. -/
def deliver (success : β → Action σ E γ Unit) (error : Exn E → Action σ E γ Unit) :
    Except (Exn E) β → Action σ E γ Unit
  | .ok v => success v
  | .error x => error x

theorem NoThrow.deliver {success : β → Action σ E γ Unit} {error : Exn E → Action σ E γ Unit}
    (hs : NoThrow success) (he : NoThrow error) : NoThrow (deliver success error) := by
  intro r w
  cases r with
  | ok v => exact hs v w
  | error x => exact he x w

/-- A synchronous call from `w` ends with `r` in `w'`, and only user functions are recorded. -/
def Task.Ends (t : Task σ E α β) (a : α) (w : World σ E γ) (r : Except (Exn E) β)
    (w' : World σ E γ) : Prop :=
  t.callSync a w = some (r, w') ∧ ∃ ids : List Nat, w'.log = w.log ++ ids.map .ran

theorem runFunc_log (id : Nat) (func : α → User σ E β) (a : α) (w : World σ E γ) :
    ∃ ids : List Nat, (runFunc id func a w).2.log = w.log ++ ids.map .ran :=
  ⟨[id], rfl⟩

/-- A `try` whose body does not throw runs the body and what follows. -/
theorem tryCatch_of_ok {body : Action σ E γ β} {catch_ : Exn E → Action σ E γ Unit}
    {after : β → Action σ E γ Unit} {w w' : World σ E γ} {v : β} (h : body w = (.ok v, w')) :
    tryCatch body catch_ after w = after v w' := by
  simp only [tryCatch, h]

theorem tryCatch_of_std {body : Action σ E γ β} {catch_ : Exn E → Action σ E γ Unit}
    {after : β → Action σ E γ Unit} {w w' : World σ E γ} {x : Exn E}
    (h : body w = (.error x, w')) (hx : x.isStd) :
    tryCatch body catch_ after w = catch_ x w' := by
  simp only [tryCatch, h, hx, if_true]

namespace Task

/-- User functions are recorded one after the other. -/
theorem ran_trans {w w₁ w₂ : World σ E γ} (h : ∃ ids : List Nat, w₁.log = w.log ++ ids.map .ran)
    (h' : ∃ ids : List Nat, w₂.log = w₁.log ++ ids.map .ran) :
    ∃ ids : List Nat, w₂.log = w.log ++ ids.map .ran := by
  obtain ⟨ids, h⟩ := h
  obtain ⟨ids', h'⟩ := h'
  exact ⟨ids ++ ids', by rw [h', h, List.map_append, List.append_assoc]⟩

/-- The asynchronous call is the synchronous call followed by one of the callbacks. -/
def Delivers (t : Task σ E α β) (a : α) (success : β → Action σ E γ Unit)
    (error : Exn E → Action σ E γ Unit) (w : World σ E γ) : Prop :=
  ∃ r w', t.Ends a w r w' ∧ t.call a success error w = deliver success error r w'

section Delivers

variable {success : β → Action σ E γ Unit} {error : Exn E → Action σ E γ Unit} {w : World σ E γ}
  {a : α} {id : Nat}

theorem delivers_function {func : α → User σ E β} (hs : NoThrow success)
    (hstd : ∀ x, (func a w.state).1 = .error x → x.isStd) :
    (Task.function id func).Delivers a success error w := by
  have hlog := runFunc_log id func a w
  cases hf : runFunc id func a w with
  | mk r w' =>
    rw [hf] at hlog
    refine ⟨r, w', ⟨congrArg some hf, hlog⟩, ?_⟩
    rw [call]
    cases r with
    | ok v =>
      -- the success callback runs inside the `try`, but it does not throw
      obtain ⟨w₂, hok⟩ := hs v w'
      rw [deliver, hok]
      apply tryCatch_of_ok (v := ())
      simp only [hf, hok]
    | error x =>
      apply tryCatch_of_std
      · simp only [hf]
      · exact hstd x (congrArg Prod.fst hf)

theorem delivers_flatFunction {ρ : Type} {func : α → User σ E (Option ρ)}
    {ret : ρ → Task σ E Unit β} (hstd : ∀ x, (func a w.state).1 = .error x → x.isStd)
    (hnull : (func a w.state).1 ≠ .ok none) (ih : ∀ r w, (ret r).Delivers () success error w) :
    (Task.flatFunction id func ret).Delivers a success error w := by
  have hlog := runFunc_log id func a w
  cases hf : runFunc id func a w with
  | mk r w' =>
    rw [hf] at hlog
    cases r with
    | ok p =>
      cases p with
      | none => exact absurd (congrArg Prod.fst hf) hnull
      | some r =>
        obtain ⟨v, w₂, ⟨hsync, hlog₂⟩, hcall⟩ := ih r w'
        refine ⟨v, w₂, ⟨?_, ran_trans hlog hlog₂⟩, ?_⟩
        · simp only [callSync, hf, hsync]
        · rw [call, ← hcall]
          apply tryCatch_of_ok
          simp only [checkedRet, hf]
    | error x =>
      refine ⟨.error x, w', ⟨?_, hlog⟩, ?_⟩
      · simp only [callSync, hf]
      · rw [call]
        apply tryCatch_of_std
        · simp only [checkedRet, hf]
        · exact hstd x (congrArg Prod.fst hf)

/-- The second task is called in the success callback of the first. -/
theorem delivers_merged {t1 : Task σ E α δ} {t2 : Task σ E δ β}
    (ih1 : t1.Delivers a (fun t => t2.call t success error) error w)
    (ih2 : ∀ t w, t2.Delivers t success error w) :
    (Task.merged t1 t2).Delivers a success error w := by
  obtain ⟨r, w₁, ⟨hsync, hlog⟩, hcall⟩ := ih1
  cases r with
  | error x =>
    refine ⟨.error x, w₁, ⟨?_, hlog⟩, hcall⟩
    simp only [callSync, hsync]
  | ok t =>
    obtain ⟨r, w₂, ⟨hsync₂, hlog₂⟩, hcall₂⟩ := ih2 t w₁
    refine ⟨r, w₂, ⟨?_, ran_trans hlog hlog₂⟩, hcall.trans hcall₂⟩
    simp only [callSync, hsync, hsync₂]

theorem NoThrow.of_delivers {t : Task σ E α β} (hs : NoThrow success) (he : NoThrow error)
    (h : ∀ a w, t.Delivers a success error w) : NoThrow fun a => t.call a success error := by
  intro a w
  obtain ⟨r, w', -, hcall⟩ := h a w
  obtain ⟨w₂, hok⟩ := hs.deliver he r w'
  exact ⟨w₂, hcall.trans hok⟩

end Delivers

/-- The callbacks are general, as the second task of a merged one is called in the success callback
of the first. -/
theorem call_eq_deliver (t : Task σ E α β) (ht : t.WellFormed) {success : β → Action σ E γ Unit}
    {error : Exn E → Action σ E γ Unit} (hs : NoThrow success) (he : NoThrow error) (a : α)
    (w : World σ E γ) : t.Delivers a success error w := by
  induction t generalizing w with
  | preSet value => exact ⟨.ok value, w, ⟨rfl, [], by simp⟩, rfl⟩
  | function id func => exact delivers_function hs (ht a w.state)
  | flatFunction id func ret ih =>
    obtain ⟨hstd, hnull, hret⟩ := ht
    exact delivers_flatFunction (hstd a w.state) (hnull a w.state) fun r => ih r (hret r) hs ()
  | merged t1 t2 ih1 ih2 =>
    have hsecond := ih2 ht.2 hs
    exact delivers_merged (ih1 ht.1 (NoThrow.of_delivers hs he hsecond) a w) hsecond

end Task

/-- A callback of the caller, recorded. -/
def recorded (event : δ → Event E γ) (callback : δ → User σ E Unit) (v : δ) : Action σ E γ Unit :=
  fun w =>
    let (r, state) := callback v w.state
    (r, { state, log := w.log ++ [event v] })

/-- One callback has run, once: the success callback with the value that is returned, or the error
callback with the exception that is thrown. -/
def World.delivered (success : β → User σ E Unit) (error : Exn E → User σ E Unit)
    (w : World σ E β) : Except (Exn E) β → World σ E β
  | .ok v => ⟨(success v w.state).2, w.log ++ [.success v]⟩
  | .error x => ⟨(error x w.state).2, w.log ++ [.error x]⟩

theorem NoThrow.recorded {event : δ → Event E γ} {callback : δ → User σ E Unit}
    (h : ∀ v s, (callback v s).1 = .ok ()) : NoThrow (recorded event callback) :=
  fun v w => ⟨_, Prod.ext (h v w.state) rfl⟩

namespace Task

/-- The asynchronous call does not throw, runs the user functions that the synchronous call runs, in
the same order and with the same effect, and then invokes exactly one of `success` and `error`, once
and last, with what the synchronous call returns, respectively throws. -/
theorem call_refines_callSync (t : Task σ E α β) (ht : t.WellFormed)
    (success : β → User σ E Unit) (error : Exn E → User σ E Unit)
    (hsuccess : ∀ v s, (success v s).1 = .ok ()) (herror : ∀ x s, (error x s).1 = .ok ())
    (a : α) (s : σ) :
    ∃ (r : Except (Exn E) β) (s' : σ) (ids : List Nat),
      t.callSync a (⟨s, []⟩ : World σ E β) = some (r, ⟨s', ids.map .ran⟩) ∧
      t.call a (recorded .success success) (recorded .error error) ⟨s, []⟩ =
        (.ok (), World.delivered success error ⟨s', ids.map .ran⟩ r) := by
  have hs : NoThrow (recorded (Event.success (E := E)) success) := .recorded hsuccess
  have he : NoThrow (recorded (Event.error (γ := β)) error) := .recorded herror
  obtain ⟨r, ⟨s', log⟩, ⟨hsync, ids, hids⟩, hcall⟩ := t.call_eq_deliver ht hs he a ⟨s, []⟩
  rw [List.nil_append] at hids
  subst hids
  refine ⟨r, s', ids, hsync, hcall.trans ?_⟩
  cases r with
  | ok v => exact Prod.ext (hsuccess v s') rfl
  | error x => exact Prod.ext (herror x s') rfl

/-- A request whose answer is parsed by a function that may throw; the task it continues with
depends on what was parsed. -/
def sampleChain : Task (List Nat) String Unit Nat :=
  ((Task.function 0 fun _ s => (.ok s.length, s ++ [7])).thenFlatFunction (ρ := Nat) 1
    (fun n s => (if n = 3 then .error (.std "parse") else .ok (some n), s))
    (fun n => (Task.preSet n).thenFunction 2 fun v s => (.ok (v + 1), s ++ [v]))).thenTask
      (.function 3 fun v s => if v = 2 then (.error (.std "late"), s) else (.ok (10 * v), s))

theorem sampleChain_wellFormed : sampleChain.WellFormed := by
  simp only [sampleChain, thenTask, thenFunction, thenFlatFunction, WellFormed]
  refine ⟨⟨by simp, ?_, ?_, by simp⟩, ?_⟩
  · intro a s x h
    split at h <;> simp_all [Exn.isStd]
    exact h ▸ rfl
  · intro a s h
    split at h <;> simp at h
  · intro a s x h
    split at h <;> simp_all
    exact h ▸ rfl

/-- The call with callbacks that note the result in the shared state: the last function throws. -/
theorem sampleChain_call_refines :
    sampleChain.WellFormed ∧
    ∃ (r : Except (Exn String) Nat) (s' : List Nat) (ids : List Nat),
      sampleChain.callSync () (⟨[0], []⟩ : World _ _ Nat) = some (r, ⟨s', ids.map .ran⟩) ∧
      sampleChain.call () (recorded .success fun v s => (.ok (), s ++ [v]))
          (recorded .error fun _ s => (.ok (), s ++ [100])) ⟨[0], []⟩ =
        (.ok (), World.delivered (fun v s => (.ok (), s ++ [v])) (fun _ s => (.ok (), s ++ [100]))
          ⟨s', ids.map .ran⟩ r) :=
  ⟨sampleChain_wellFormed, sampleChain.call_refines_callSync sampleChain_wellFormed
    (fun v s => (.ok (), s ++ [v])) (fun _ s => (.ok (), s ++ [100])) (fun _ _ => rfl)
    (fun _ _ => rfl) () [0]⟩

example : sampleChain.call () (recorded .success fun v s => (.ok (), s ++ [v]))
    (recorded .error fun _ s => (.ok (), s ++ [100])) ⟨[0], []⟩ =
      (.ok (), ⟨[0, 7, 1, 100], [.ran 0, .ran 1, .ran 2, .ran 3, .error (.std "late")]⟩) := rfl

end Task
end McpeLauncher.PlayApi
