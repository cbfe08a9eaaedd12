import Mathlib.Logic.Function.Basic
import McpeLauncher.Lib.Runs

/-!
# The task thread

`cll::TaskWithDelayThread` runs a function on a thread of its own whenever a run is requested. Any
number of threads may request runs, also the function itself; the thread ends when nothing is
pending, and the next request joins it and starts another one.

A step is a statement of one of the threads. Spurious wake-ups are allowed, so a notification has
no effect of its own. `terminate` is called once at most, and no `requestRun` takes the lock after
it did.
-/

namespace McpeLauncher.Telemetry

/-- Where a thread is in `doThreadLoop`. -/
inductive WorkerPc
  | lock
  /-- `while (hasPendingTask)` -/
  | loop
  /-- `if (!runImmediately && !stopping)` -/
  | delay
  /-- In `cv.wait_for`, which has released the lock. -/
  | waiting
  /-- `hasPendingTask = false` -/
  | take
  /-- `runImmediately = false` -/
  | takeImmediate
  | unlock
  /-- `function()` is next. -/
  | call
  | function
  /-- In a call of `isStopping` or `sleep` from the function. -/
  | locked
  /-- In a call of `requestRun` from the function. -/
  | requesting
  | relock
  /-- `running = false` -/
  | stop
  /-- The destructor of the lock is next. -/
  | leave
  | exiting
  /-- The thread has exited, or it was not created yet. -/
  | gone
  deriving DecidableEq

/-- Where `requestRun` is, after it has taken the lock. -/
inductive RequestPc
  /-- `hasPendingTask = true` -/
  | pending
  /-- `if (immediate) runImmediately = true` -/
  | immediate
  /-- `if (!running)` -/
  | test
  /-- `running = true` -/
  | start
  /-- `if (thread.joinable()) thread.join()` -/
  | join
  /-- `thread = std::thread(…)` -/
  | create
  | release
  deriving DecidableEq

/-- Where `terminate` is; it holds the lock in the first three places after the call. -/
inductive TerminatePc
  | notCalled
  /-- `runImmediately = true` -/
  | immediate
  /-- `stopping = true` -/
  | stopping
  | release
  /-- `if (thread.joinable()) thread.join()` -/
  | join
  | done
  deriving DecidableEq

/-- Who holds the mutex: a worker thread, a `requestRun` called by a worker or by another thread,
or `terminate`. -/
inductive Holder
  | worker (i : Nat)
  | request (caller : Option Nat) (immediate : Bool) (pc : RequestPc)
  | terminate
  deriving DecidableEq

/-- The object and its threads. `requests` counts the calls of `requestRun` that took the lock, and
`started` is what it was when the function started last. -/
structure TaskWithDelayThread where
  running : Bool
  hasPendingTask : Bool
  runImmediately : Bool
  stopping : Bool
  thread : Option Nat
  mutex : Option Holder
  workers : Nat → WorkerPc
  spawned : Nat
  terminator : TerminatePc
  requests : Nat
  started : Nat

namespace TaskWithDelayThread

def new : TaskWithDelayThread where
  running := false
  hasPendingTask := false
  runImmediately := false
  stopping := false
  thread := none
  mutex := none
  workers _ := .gone
  spawned := 0
  terminator := .notCalled
  requests := 0
  started := 0

inductive Action
  /-- `requestRun` takes the lock. -/
  | requestRun (caller : Option Nat) (immediate : Bool)
  /-- The next statement of the `requestRun` that holds the lock. -/
  | requester
  /-- The next statement of a worker; for one that waits, the end of its waiting. -/
  | worker (i : Nat)
  /-- The function calls `isStopping` or `sleep`. -/
  | lockInFunction (i : Nat)
  /-- `terminate` takes the lock. -/
  | terminate
  /-- The next statement of `terminate`. -/
  | terminator

/-- Worker `i` goes on to another place. -/
def goto (s : TaskWithDelayThread) (i : Nat) (pc : WorkerPc) : TaskWithDelayThread :=
  { s with workers := Function.update s.workers i pc }

/-- The mutex is taken, if it is free. -/
def acquire (s : TaskWithDelayThread) (h : Holder) : Option TaskWithDelayThread :=
  if s.mutex = none then some { s with mutex := some h } else none

def release (s : TaskWithDelayThread) : TaskWithDelayThread := { s with mutex := none }

@[simp] theorem goto_mutex (s : TaskWithDelayThread) (i : Nat) (pc : WorkerPc) :
    (s.goto i pc).mutex = s.mutex := rfl

@[simp] theorem release_mutex (s : TaskWithDelayThread) : s.release.mutex = none := rfl

/-- `if (thread.joinable()) thread.join()`, which blocks until the thread has exited. -/
def join (s : TaskWithDelayThread) : Option TaskWithDelayThread :=
  match s.thread with
  | none => some s
  | some i => if s.workers i = .gone then some { s with thread := none } else none

/-- `doThreadLoop`. -/
def doThreadLoop (s : TaskWithDelayThread) (i : Nat) : WorkerPc → Option TaskWithDelayThread
  | .lock => (s.acquire (.worker i)).map (·.goto i .loop)
  | .loop => some (s.goto i (if s.hasPendingTask then .delay else .stop))
  | .delay =>
    some (if !s.runImmediately && !s.stopping then s.release.goto i .waiting else s.goto i .take)
  | .waiting => (s.acquire (.worker i)).map (·.goto i .take)
  | .take => some ({ s with hasPendingTask := false }.goto i .takeImmediate)
  | .takeImmediate => some ({ s with runImmediately := false }.goto i .unlock)
  | .unlock => some (s.release.goto i .call)
  | .call => some ({ s with started := s.requests }.goto i .function)
  | .function => some (s.goto i .relock)
  | .locked => some (s.release.goto i .function)
  | .requesting => none
  | .relock => (s.acquire (.worker i)).map (·.goto i .loop)
  | .stop => some ({ s with running := false }.goto i .leave)
  | .leave => some (s.release.goto i .exiting)
  | .exiting => some (s.goto i .gone)
  | .gone => none

/-- `requestRun`, which goes on in the place `next`. -/
def requestRun (s : TaskWithDelayThread) (caller : Option Nat) (immediate : Bool) (pc : RequestPc) :
    Option TaskWithDelayThread :=
  let next (s : TaskWithDelayThread) (pc : RequestPc) : TaskWithDelayThread :=
    { s with mutex := some (.request caller immediate pc) }
  match pc with
  | .pending => some (next { s with hasPendingTask := true } .immediate)
  | .immediate => some (next { s with runImmediately := s.runImmediately || immediate } .test)
  | .test => some (next s (if s.running then .release else .start))
  | .start => some (next { s with running := true } .join)
  | .join => s.join.map (next · .create)
  | .create =>
    -- assigning to a joinable `std::thread` ends the process
    if s.thread = none then
      some (next { s.goto s.spawned .lock with thread := some s.spawned, spawned := s.spawned + 1 }
        .release)
    else none
  | .release =>
    match caller with
    | none => some s.release
    | some i => some (s.release.goto i .function)

def terminate (s : TaskWithDelayThread) : TerminatePc → Option TaskWithDelayThread
  | .notCalled => none
  | .immediate => some { s with runImmediately := true, terminator := .stopping }
  | .stopping => some { s with stopping := true, terminator := .release }
  | .release => some { s.release with terminator := .join }
  | .join => s.join.map ({ · with terminator := .done })
  | .done => none

def step (s : TaskWithDelayThread) : Action → Option TaskWithDelayThread
  | .requestRun caller immediate =>
    if s.terminator ≠ .notCalled then none
    else
      let counted := { s with requests := s.requests + 1 }
      match caller with
      | none => counted.acquire (.request none immediate .pending)
      | some i =>
        if s.workers i = .function then
          (counted.acquire (.request (some i) immediate .pending)).map (·.goto i .requesting)
        else none
  | .requester =>
    match s.mutex with
    | some (.request caller immediate pc) => s.requestRun caller immediate pc
    | _ => none
  | .worker i => s.doThreadLoop i (s.workers i)
  | .lockInFunction i =>
    if s.workers i = .function then (s.acquire (.worker i)).map (·.goto i .locked) else none
  | .terminate =>
    if s.terminator = .notCalled then
      (s.acquire .terminate).map ({ · with terminator := .immediate })
    else none
  | .terminator => s.terminate s.terminator

def Reachable (s : TaskWithDelayThread) : Prop := ∃ actions, Runs.run step new actions = some s

end TaskWithDelayThread

/-! ## The invariant -/

namespace WorkerPc

/-- The worker holds the lock. -/
def holds : WorkerPc → Bool
  | .loop | .delay | .take | .takeImmediate | .unlock | .locked | .stop | .leave => true
  | _ => false

/-- The worker has set `running` to false. -/
def stopped : WorkerPc → Bool
  | .leave | .exiting | .gone => true
  | _ => false

/-- An execution of the function is in progress. -/
def executes : WorkerPc → Bool
  | .function | .locked | .requesting => true
  | _ => false

/-- The worker has taken the pending task and is about to execute the function. -/
def tookTask : WorkerPc → Bool
  | .takeImmediate | .unlock | .call => true
  | _ => false

end WorkerPc

/-- `terminate` holds the lock. -/
def TerminatePc.holds : TerminatePc → Bool
  | .immediate | .stopping | .release => true
  | _ => false

namespace TaskWithDelayThread

/-- `running` tells whether the worker in the place `w` is still in its loop, and nothing is pending
without a worker. -/
@[mk_iff]
structure Settled (s : TaskWithDelayThread) (w : WorkerPc) : Prop where
  running : s.running = !w.stopped
  pending : w.stopped = true → s.hasPendingTask = false

/-- The `requestRun` that holds the lock has come that far, with the worker in the place `w`. -/
def RequestOk (s : TaskWithDelayThread) (w : WorkerPc) : RequestPc → Prop
  | .pending => s.Settled w
  | .immediate | .test => s.hasPendingTask = true ∧ s.running = !w.stopped
  | .start => s.hasPendingTask = true ∧ s.running = false ∧ w.stopped = true
  | .join => s.hasPendingTask = true ∧ s.running = true ∧ w.stopped = true
  | .create => s.hasPendingTask = true ∧ s.running = true ∧ w = .gone ∧ s.thread = none
  | .release => s.hasPendingTask = true ∧ s.running = true ∧ w.stopped = false

/-- The flags and the place `w` of worker `i` agree, depending on who holds the lock. -/
def LockOk (s : TaskWithDelayThread) (i : Nat) (w : WorkerPc) : Option Holder → Prop
  | none | some .terminate => w.holds = false ∧ w ≠ .requesting ∧ s.Settled w
  | some (.worker j) =>
    j = i ∧ w.holds = true ∧ s.Settled w ∧ (w = .stop → s.hasPendingTask = false)
  | some (.request none _ pc) => w.holds = false ∧ w ≠ .requesting ∧ s.RequestOk w pc
  | some (.request (some j) _ pc) => j = i ∧ w = .requesting ∧ s.RequestOk w pc

/-- The number of calls of `requestRun` that have released the lock again. -/
def returned (s : TaskWithDelayThread) : Nat :=
  match s.mutex with
  | some (.request ..) => s.requests - 1
  | _ => s.requests

/-- There is no worker but `i`, which is in the place `w`. -/
structure Inv (s : TaskWithDelayThread) (i : Nat) (w : WorkerPc) : Prop where
  workers : s.workers = Function.update (fun _ => .gone) i w
  thread : w ≠ .gone → s.thread = some i
  lock : s.LockOk i w s.mutex
  served : s.returned ≤ s.started ∨
    s.running = true ∧ (s.hasPendingTask = true ∨ w.tookTask = true)
  terminating : s.terminator.holds = true ↔ s.mutex = some .terminate

variable {s s' : TaskWithDelayThread} {i : Nat} {w : WorkerPc}

theorem acquire_eq_some {h : Holder} :
    s.acquire h = some s' ↔ s.mutex = none ∧ { s with mutex := some h } = s' := by
  unfold acquire
  split <;> simp_all

theorem acquire_map_eq_some {h : Holder} {f : TaskWithDelayThread → TaskWithDelayThread} :
    (s.acquire h).map f = some s' ↔ s.mutex = none ∧ f { s with mutex := some h } = s' := by
  unfold acquire
  split <;> simp_all

theorem returned_le (s : TaskWithDelayThread) : s.returned ≤ s.requests := by
  unfold returned
  split
  · exact Nat.sub_le _ _
  · exact Nat.le_refl _

theorem returned_of_mutex (hm : s.mutex = none ∨ s.mutex = some (.worker i)) :
    s.returned = s.requests := by
  rcases hm with hm | hm <;> simp [returned, hm]

theorem inv_new : new.Inv 0 .gone where
  workers := (Function.update_eq_self 0 _).symm
  thread h := absurd rfl h
  lock := ⟨rfl, by simp, rfl, fun _ => rfl⟩
  served := .inl (Nat.le_refl _)
  terminating := by simp [new, TerminatePc.holds]

theorem Inv.workers_self (h : s.Inv i w) : s.workers i = w := by
  rw [h.workers, Function.update_self]

theorem Inv.eq_of_ne_gone (h : s.Inv i w) (hj : s.workers j ≠ .gone) : j = i := by
  by_contra hne
  rw [h.workers, Function.update_of_ne hne] at hj
  exact hj rfl

theorem Inv.mutex_of_holds (h : s.Inv i w) (hw : w.holds = true) : s.mutex = some (.worker i) := by
  have hl := h.lock
  unfold LockOk at hl
  split at hl
  · rw [hw] at hl; cases hl.1
  · rw [hw] at hl; cases hl.1
  · next hm => rw [hm, hl.1]
  · rw [hw] at hl; cases hl.1
  · rw [hl.2.1] at hw; cases hw

theorem Inv.terminating_of {m m' : Option Holder} (h : s.Inv i w) (hm : s.mutex = m)
    (hne : m ≠ some .terminate) (hne' : m' ≠ some .terminate) :
    s.terminator.holds = true ↔ m' = some .terminate :=
  iff_of_false (fun ht => hne (hm ▸ h.terminating.mp ht)) hne'

/-- What holds with the mutex at hand. -/
theorem Inv.lockOk (h : s.Inv i w) (hm : s.mutex = m) : s.LockOk i w m := hm ▸ h.lock

theorem Settled.congr (h : s.Settled w) (hrun : s'.running = s.running)
    (hpend : s'.hasPendingTask = s.hasPendingTask) (hst : w'.stopped = w.stopped) :
    s'.Settled w' :=
  ⟨by rw [hrun, h.running, hst], fun hs => by rw [hpend, h.pending (hst ▸ hs)]⟩

theorem RequestOk.congr (h : s.RequestOk w pc) (hrun : s'.running = s.running)
    (hpend : s'.hasPendingTask = s.hasPendingTask) (hthread : s.thread = none → s'.thread = none) :
    s'.RequestOk w pc := by
  cases pc with
  | pending => exact Settled.congr h hrun hpend rfl
  | immediate | test | start | join | create | release =>
    unfold RequestOk
    rw [hpend, hrun]
    first | exact h | exact ⟨h.1, h.2.1, h.2.2.1, hthread h.2.2.2⟩

/-- What holds about the lock depends on the flags and the thread only. -/
theorem LockOk.congr (h : s.LockOk i w m) (hrun : s'.running = s.running)
    (hpend : s'.hasPendingTask = s.hasPendingTask) (hthread : s.thread = none → s'.thread = none) :
    s'.LockOk i w m := by
  unfold LockOk at h ⊢
  split at h
  · exact ⟨h.1, h.2.1, h.2.2.congr hrun hpend rfl⟩
  · exact ⟨h.1, h.2.1, h.2.2.congr hrun hpend rfl⟩
  · exact ⟨h.1, h.2.1, h.2.2.1.congr hrun hpend rfl, fun hw => hpend.trans (h.2.2.2 hw)⟩
  · exact ⟨h.1, h.2.1, h.2.2.congr hrun hpend hthread⟩
  · exact ⟨h.1, h.2.1, h.2.2.congr hrun hpend hthread⟩

/-! ## Steps of the worker -/

section
variable {w w' : WorkerPc}

/-- The worker takes the lock. -/
theorem Inv.acquire (h : s.Inv i w) (hs : (s.acquire (.worker i)).map (·.goto i w') = some s')
    (hw : w ≠ .gone) (hst : w'.stopped = w.stopped) (hheld : w'.holds = true) (hstop : w' ≠ .stop)
    (htask : w.tookTask = false) : s'.Inv i w' := by
  obtain ⟨hm, rfl⟩ := acquire_map_eq_some.mp hs
  obtain ⟨_, _, hsettled⟩ := h.lockOk hm
  refine ⟨?_, fun _ => h.thread hw, ?_, ?_, h.terminating_of hm (by simp) (by simp)⟩
  · simp only [goto, h.workers, Function.update_idem]
  · exact ⟨rfl, hheld, hsettled.congr rfl rfl hst, fun he => absurd he hstop⟩
  · rcases h.served with hs | ⟨hrun, hs⟩
    · rw [returned_of_mutex (i := i) (.inl hm)] at hs
      exact .inl hs
    · exact .inr ⟨hrun, hs.imp_right fun hs => by rw [htask] at hs; cases hs⟩

/-- The worker releases the lock. -/
theorem Inv.release (h : s.Inv i w) (hw : w.holds = true) (hw' : w'.holds = false)
    (hreq : w' ≠ .requesting) (hst : w'.stopped = w.stopped)
    (htask : w.tookTask = true → w'.tookTask = true) : (s.release.goto i w').Inv i w' := by
  have hm := h.mutex_of_holds hw
  obtain ⟨_, _, hsettled, _⟩ := h.lockOk hm
  refine ⟨?_, fun _ => h.thread ?_, ?_, ?_, h.terminating_of hm (by simp) (by simp)⟩
  · simp only [goto, TaskWithDelayThread.release, h.workers, Function.update_idem]
  · rintro rfl
    cases hw
  · exact ⟨hw', hreq, hsettled.congr rfl rfl hst⟩
  · rcases h.served with hs | ⟨hrun, hs⟩
    · rw [returned_of_mutex (.inr hm)] at hs
      exact .inl hs
    · exact .inr ⟨hrun, hs.imp_right htask⟩

/-- The worker goes on without the lock. -/
theorem Inv.free (h : s.Inv i w) (hw : w.holds = false) (hw' : w'.holds = false)
    (hreq : w ≠ .requesting) (hreq' : w' ≠ .requesting) (hst : w'.stopped = w.stopped)
    (hgone : w ≠ .gone) (htask : w.tookTask = true → s.started = s.requests) :
    (s.goto i w').Inv i w' := by
  refine ⟨?_, fun _ => h.thread hgone, ?_, ?_, h.terminating⟩
  · simp only [goto, h.workers, Function.update_idem]
  · have hl := h.lock
    have hsettled : s.Settled w → (s.goto i w').Settled w' := fun hs => hs.congr rfl rfl hst
    unfold LockOk at hl
    change LockOk _ _ _ s.mutex
    unfold LockOk
    split at hl
    · exact ⟨hw', hreq', hsettled hl.2.2⟩
    · exact ⟨hw', hreq', hsettled hl.2.2⟩
    · rw [hw] at hl
      cases hl.2.1
    · next pc hm =>
      refine ⟨hw', hreq', ?_⟩
      cases pc with
      | pending => exact hsettled hl.2.2
      | immediate | test | start | join | release =>
        unfold RequestOk
        rw [hst]
        exact hl.2.2
      | create => exact absurd hl.2.2.2.2.1 hgone
    · exact absurd hl.2.1 hreq
  · rcases h.served with hs | ⟨hrun, hs | hs⟩
    · exact .inl hs
    · exact .inr ⟨hrun, .inl hs⟩
    · exact .inl (htask hs ▸ returned_le (s.goto i w'))

/-- The worker goes on with the lock. -/
theorem Inv.hold (h : s.Inv i w) (hw : w.holds = true) (hw' : w'.holds = true)
    (hthread : s'.thread = s.thread) (hmutex : s'.mutex = s.mutex)
    (hterm : s'.terminator = s.terminator) (hworkers : s'.workers = s.workers)
    (hsettled : s'.Settled w') (hstop : w' = .stop → s'.hasPendingTask = false)
    (hserved : s'.requests ≤ s'.started ∨
      s'.running = true ∧ (s'.hasPendingTask = true ∨ w'.tookTask = true)) :
    (s'.goto i w').Inv i w' := by
  have hm := h.mutex_of_holds hw
  refine ⟨?_, fun _ => hthread.trans (h.thread ?_), ?_, ?_, ?_⟩
  · simp only [goto, hworkers, h.workers, Function.update_idem]
  · rintro rfl
    cases hw
  · change LockOk _ _ _ s'.mutex
    rw [hmutex, hm]
    exact ⟨rfl, hw', hsettled.congr rfl rfl rfl, hstop⟩
  · exact hserved.imp_left (Nat.le_trans (returned_le (s'.goto i w')))
  · change s'.terminator.holds = true ↔ s'.mutex = some .terminate
    rw [hterm, hmutex]
    exact h.terminating

end

/-- With the lock, only a worker that has taken the task leaves a request without a pending task. -/
theorem Inv.served_of_holds (h : s.Inv i w) (hw : w.holds = true) (htask : w.tookTask = false) :
    s.requests ≤ s.started ∨ s.running = true ∧ s.hasPendingTask = true := by
  have hm := h.mutex_of_holds hw
  rcases h.served with hs | ⟨hrun, hs⟩
  · rw [returned_of_mutex (.inr hm)] at hs
    exact .inl hs
  · refine .inr ⟨hrun, hs.resolve_right ?_⟩
    simp [htask]

theorem Inv.settled_of_holds (h : s.Inv i w) (hw : w.holds = true) :
    s.Settled w ∧ (w = .stop → s.hasPendingTask = false) :=
  (h.lockOk (h.mutex_of_holds hw)).2.2

/-- Each statement of `doThreadLoop` keeps the invariant. -/
theorem Inv.worker (h : s.Inv i w) (hs : s.doThreadLoop j (s.workers j) = some s') :
    ∃ w', s'.Inv i w' := by
  obtain rfl : j = i := h.eq_of_ne_gone fun hgone => by rw [hgone] at hs; cases hs
  rw [h.workers_self] at hs
  cases w with
  | lock => exact ⟨.loop, h.acquire hs (by simp) rfl rfl (by simp) rfl⟩
  | loop =>
    cases hs
    obtain ⟨hsettled, _⟩ := h.settled_of_holds rfl
    have hserved := h.served_of_holds rfl rfl
    cases hp : s.hasPendingTask with
    | true =>
      exact ⟨.delay, h.hold rfl rfl rfl rfl rfl rfl (hsettled.congr rfl rfl rfl) (by simp)
        (.inr ⟨hsettled.running, .inl hp⟩)⟩
    | false =>
      refine ⟨.stop, h.hold rfl rfl rfl rfl rfl rfl (hsettled.congr rfl rfl rfl) (fun _ => hp)
        (.inl ?_)⟩
      simpa [hp] using hserved
  | delay =>
    cases hs
    split
    · exact ⟨.waiting, h.release rfl rfl (by simp) rfl (fun ht => by cases ht)⟩
    · obtain ⟨hsettled, _⟩ := h.settled_of_holds rfl
      refine ⟨.take, h.hold rfl rfl rfl rfl rfl rfl (hsettled.congr rfl rfl rfl) (by simp) ?_⟩
      exact (h.served_of_holds rfl rfl).imp_right fun hs => ⟨hs.1, .inl hs.2⟩
  | waiting => exact ⟨.take, h.acquire hs (by simp) rfl rfl (by simp) rfl⟩
  | take =>
    cases hs
    obtain ⟨hsettled, _⟩ := h.settled_of_holds rfl
    exact ⟨.takeImmediate, h.hold rfl rfl rfl rfl rfl rfl ⟨hsettled.running, fun hst => by cases hst⟩
      (by simp) (.inr ⟨hsettled.running, .inr rfl⟩)⟩
  | takeImmediate =>
    cases hs
    obtain ⟨hsettled, _⟩ := h.settled_of_holds rfl
    exact ⟨.unlock, h.hold rfl rfl rfl rfl rfl rfl (hsettled.congr rfl rfl rfl) (by simp)
      (.inr ⟨hsettled.running, .inr rfl⟩)⟩
  | unlock =>
    cases hs
    exact ⟨.call, h.release rfl rfl (by simp) rfl (fun _ => rfl)⟩
  | call =>
    cases hs
    have hstarted : { s with started := s.requests }.Inv j .call :=
      ⟨h.workers, h.thread, h.lock.congr rfl rfl id, .inl (returned_le s), h.terminating⟩
    exact ⟨.function, hstarted.free rfl rfl (by simp) (by simp) rfl (by simp) (fun _ => rfl)⟩
  | function =>
    cases hs
    exact ⟨.relock, h.free rfl rfl (by simp) (by simp) rfl (by simp) (fun ht => by cases ht)⟩
  | locked =>
    cases hs
    exact ⟨.function, h.release rfl rfl (by simp) rfl (fun ht => by cases ht)⟩
  | requesting => cases hs
  | relock => exact ⟨.loop, h.acquire hs (by simp) rfl rfl (by simp) rfl⟩
  | stop =>
    cases hs
    obtain ⟨_, hstop⟩ := h.settled_of_holds rfl
    refine ⟨.leave, h.hold rfl rfl rfl rfl rfl rfl ⟨rfl, fun _ => hstop rfl⟩ (by simp) (.inl ?_)⟩
    simpa [hstop rfl] using h.served_of_holds rfl rfl
  | leave =>
    cases hs
    exact ⟨.exiting, h.release rfl rfl (by simp) rfl (fun ht => by cases ht)⟩
  | exiting =>
    cases hs
    exact ⟨.gone, h.free rfl rfl (by simp) (by simp) rfl (by simp) (fun ht => by cases ht)⟩
  | gone => cases hs

/-! ## Steps of the other threads -/

/-- What `requestRun` knows about the worker, whoever called it. -/
theorem LockOk.request (h : s.LockOk i w (some (.request caller immediate pc))) :
    s.RequestOk w pc ∧ ∀ {s' : TaskWithDelayThread} {pc' : RequestPc}, s'.RequestOk w pc' →
      s'.LockOk i w (some (.request caller immediate pc')) := by
  cases caller with
  | none => exact ⟨h.2.2, fun h' => ⟨h.1, h.2.1, h'⟩⟩
  | some j => exact ⟨h.2.2, fun h' => ⟨h.1, h.2.1, h'⟩⟩

/-- A statement of `requestRun` that keeps the lock. -/
theorem Inv.request (h : s.Inv i w) (hm : s.mutex = some (.request caller immediate pc))
    (hworkers : s'.workers = s.workers) (hthread : w ≠ .gone → s'.thread = s.thread)
    (hterm : s'.terminator = s.terminator) (hreq : s'.requests = s.requests)
    (hstarted : s'.started = s.started) (hok : s'.RequestOk w pc')
    (hrun : s.running = true → s'.running = true) (hpend : s'.hasPendingTask = true) :
    { s' with mutex := some (.request caller immediate pc') }.Inv i w where
  workers := hworkers.trans h.workers
  thread hw := (hthread hw).trans (h.thread hw)
  lock := (h.lockOk hm).request.2 (hok.congr rfl rfl id)
  served := by
    rcases h.served with hs | ⟨hr, _⟩
    · refine .inl ?_
      simp only [returned, hm] at hs ⊢
      rw [hreq, hstarted]
      exact hs
    · exact .inr ⟨hrun hr, .inl hpend⟩
  terminating := hterm ▸ h.terminating_of hm (by simp) (by simp)

/-- Joining: a thread that can be joined is the worker, and it has exited then. -/
theorem Inv.join (h : s.Inv i w) (hs : s.join = some s') :
    (w ≠ .gone → s.thread = none) ∧ s' = { s with thread := none } := by
  unfold TaskWithDelayThread.join at hs
  split at hs
  · next ht =>
    cases hs
    exact ⟨fun _ => ht, by rw [← ht]⟩
  · next j ht =>
    split at hs
    · next hj =>
      cases hs
      refine ⟨fun hw => ?_, rfl⟩
      rw [h.thread hw, Option.some.injEq] at ht
      rw [← ht, h.workers_self] at hj
      exact absurd hj hw
    · cases hs

theorem Inv.requester (h : s.Inv i w) (hm : s.mutex = some (.request caller immediate pc))
    (hs : s.requestRun caller immediate pc = some s') : ∃ i w, s'.Inv i w := by
  have hok := (h.lockOk hm).request.1
  cases pc with
  | pending =>
    cases hs
    have hsettled : s.Settled w := hok
    exact ⟨i, w, h.request hm rfl (fun _ => rfl) rfl rfl rfl ⟨rfl, hsettled.running⟩ id rfl⟩
  | immediate =>
    cases hs
    exact ⟨i, w, h.request hm rfl (fun _ => rfl) rfl rfl rfl hok id hok.1⟩
  | test =>
    cases hs
    obtain ⟨hpend, hrun⟩ := hok
    refine ⟨i, w, h.request hm rfl (fun _ => rfl) rfl rfl rfl ?_ id hpend⟩
    cases hr : s.running with
    | true =>
      rw [hr] at hrun
      exact ⟨hpend, hr, by simpa using hrun⟩
    | false =>
      rw [hr] at hrun
      exact ⟨hpend, hr, by simpa using hrun⟩
  | start =>
    cases hs
    obtain ⟨hpend, _, hst⟩ := hok
    exact ⟨i, w, h.request hm rfl (fun _ => rfl) rfl rfl rfl ⟨hpend, rfl, hst⟩ (fun _ => rfl) hpend⟩
  | join =>
    obtain ⟨s₁, hj, rfl⟩ := Option.map_eq_some_iff.mp hs
    obtain ⟨hpend, hrun, hst⟩ := hok
    obtain ⟨hnone, rfl⟩ := h.join hj
    have hgone : w = .gone := by
      by_contra hw
      have := h.thread hw
      rw [hnone hw] at this
      cases this
    exact ⟨i, w, h.request hm rfl (fun hw => absurd hgone hw) rfl rfl rfl ⟨hpend, hrun, hgone, rfl⟩
      id hpend⟩
  | create =>
    obtain ⟨hpend, hrun, rfl, hnone⟩ := hok
    simp only [TaskWithDelayThread.requestRun, hnone, if_true, Option.some.injEq] at hs
    subst hs
    -- all workers were gone, and the caller was none of them
    refine ⟨s.spawned, .lock, ?_, fun _ => rfl, ?_, .inr ⟨hrun, .inl hpend⟩,
      h.terminating_of hm (by simp) (by simp)⟩
    · simp only [goto, h.workers, Function.update_eq_self]
    · have hl := h.lockOk hm
      cases caller with
      | none => exact ⟨rfl, by simp, hpend, hrun, rfl⟩
      | some j => cases hl.2.1
  | release =>
    obtain ⟨hpend, hrun, hst⟩ := hok
    have hl := h.lockOk hm
    have hterm : s.terminator.holds = true ↔ none = some Holder.terminate :=
      h.terminating_of hm (by simp) (by simp)
    have hsettled : ∀ {w'}, w'.stopped = false → s.release.Settled w' := fun hw' =>
      ⟨by rw [hw']; exact hrun, fun hs => by rw [hw'] at hs; cases hs⟩
    cases caller with
    | none =>
      cases hs
      exact ⟨i, w, h.workers, h.thread, ⟨hl.1, hl.2.1, hsettled hst⟩,
        .inr ⟨hrun, .inl hpend⟩, hterm⟩
    | some j =>
      cases hs
      obtain ⟨rfl, rfl, _⟩ := hl
      refine ⟨j, .function, ?_, fun _ => h.thread (by simp), ⟨rfl, by simp, ?_⟩,
        .inr ⟨hrun, .inl hpend⟩, hterm⟩
      · simp only [goto, TaskWithDelayThread.release, h.workers, Function.update_idem]
      · exact (hsettled rfl).congr rfl rfl rfl

/-- `requestRun` takes the lock. -/
theorem Inv.requestRun (h : s.Inv i w) (hs : s.step (.requestRun caller immediate) = some s') :
    ∃ w, s'.Inv i w := by
  simp only [step, ne_eq, ite_not] at hs
  split at hs
  · cases caller with
    | none =>
      obtain ⟨hm, rfl⟩ := acquire_eq_some.mp hs
      change s.mutex = none at hm
      obtain ⟨hw, hreq, hsettled⟩ := h.lockOk hm
      have hserved := h.served
      rw [returned_of_mutex (i := i) (.inl hm)] at hserved
      exact ⟨w, h.workers, h.thread, ⟨hw, hreq, hsettled.congr rfl rfl rfl⟩, hserved,
        h.terminating_of hm (by simp) (by simp)⟩
    | some j =>
      simp only at hs
      split at hs
      · next hj =>
        obtain ⟨hm, rfl⟩ := acquire_map_eq_some.mp hs
        change s.mutex = none at hm
        obtain rfl : j = i := h.eq_of_ne_gone (by simp [hj])
        obtain rfl : w = .function := h.workers_self.symm.trans hj
        obtain ⟨_, _, hsettled⟩ := h.lockOk hm
        have hserved := h.served
        rw [returned_of_mutex (i := j) (.inl hm)] at hserved
        refine ⟨.requesting, ?_, fun _ => h.thread (by simp),
          ⟨rfl, rfl, hsettled.congr rfl rfl rfl⟩, hserved, h.terminating_of hm (by simp) (by simp)⟩
        simp only [goto, h.workers, Function.update_idem]
      · cases hs
  · cases hs

/-- Each statement of `terminate` keeps the invariant. -/
theorem Inv.terminate (h : s.Inv i w) (hs : s.terminate s.terminator = some s') : s'.Inv i w := by
  cases ht : s.terminator with
  | notCalled =>
    rw [ht] at hs
    cases hs
  | immediate =>
    have hm := h.terminating.mp (ht ▸ rfl)
    rw [ht] at hs
    cases hs
    exact ⟨h.workers, h.thread, h.lock.congr rfl rfl id, h.served, iff_of_true rfl hm⟩
  | stopping =>
    have hm := h.terminating.mp (ht ▸ rfl)
    rw [ht] at hs
    cases hs
    exact ⟨h.workers, h.thread, h.lock.congr rfl rfl id, h.served, iff_of_true rfl hm⟩
  | release =>
    have hm := h.terminating.mp (ht ▸ rfl)
    rw [ht] at hs
    cases hs
    obtain ⟨hw, hreq, hsettled⟩ := h.lockOk hm
    have hserved := h.served
    simp only [returned, hm] at hserved
    exact ⟨h.workers, h.thread, ⟨hw, hreq, hsettled.congr rfl rfl rfl⟩, hserved,
      by simp [TaskWithDelayThread.release, TerminatePc.holds]⟩
  | join =>
    rw [ht] at hs
    obtain ⟨s₁, hj, rfl⟩ := Option.map_eq_some_iff.mp hs
    obtain ⟨hnone, rfl⟩ := h.join hj
    have hthread : w ≠ .gone → none = some i := fun hw => (hnone hw).symm.trans (h.thread hw)
    refine ⟨h.workers, hthread, h.lock.congr rfl rfl (fun _ => rfl), h.served, ?_⟩
    have := h.terminating
    rw [ht] at this
    exact this
  | done =>
    rw [ht] at hs
    cases hs

theorem Inv.step (h : s.Inv i w) (hs : s.step a = some s') : ∃ i w, s'.Inv i w := by
  cases a with
  | requestRun caller immediate =>
    obtain ⟨w, h'⟩ := h.requestRun hs
    exact ⟨i, w, h'⟩
  | requester =>
    simp only [TaskWithDelayThread.step] at hs
    split at hs
    · next hm => exact h.requester hm hs
    · cases hs
  | worker j =>
    obtain ⟨w, h'⟩ := h.worker hs
    exact ⟨i, w, h'⟩
  | lockInFunction j =>
    simp only [TaskWithDelayThread.step] at hs
    split at hs
    · next hj =>
      obtain rfl : j = i := h.eq_of_ne_gone (by simp [hj])
      obtain rfl : w = .function := h.workers_self.symm.trans hj
      exact ⟨j, .locked, h.acquire hs (by simp) rfl rfl (by simp) rfl⟩
    · cases hs
  | terminate =>
    simp only [TaskWithDelayThread.step] at hs
    split at hs
    · obtain ⟨hm, rfl⟩ := acquire_map_eq_some.mp hs
      obtain ⟨hw, hreq, hsettled⟩ := h.lockOk hm
      have hserved := h.served
      rw [returned_of_mutex (i := i) (.inl hm)] at hserved
      exact ⟨i, w, h.workers, h.thread, ⟨hw, hreq, hsettled.congr rfl rfl rfl⟩, hserved,
        iff_of_true rfl rfl⟩
    · cases hs
  | terminator => exact ⟨i, w, h.terminate hs⟩

theorem Reachable.inv (h : s.Reachable) : ∃ i w, s.Inv i w := by
  obtain ⟨actions, hrun⟩ := h
  have hstep : ∀ s a s', (∃ i w, Inv s i w) → s.step a = some s' → ∃ i w, Inv s' i w := by
    rintro s a s' ⟨i, w, h⟩ hs
    exact h.step hs
  exact Runs.inv_of_run hstep ⟨0, .gone, inv_new⟩ hrun

end TaskWithDelayThread

end McpeLauncher.Telemetry
