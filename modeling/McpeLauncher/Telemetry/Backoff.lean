import Mathlib.Algebra.Group.Int.Defs
import McpeLauncher.Telemetry.EventManager

/-!
# Waiting between uploads

`EventManager::uploadTasks` sleeps after each failed attempt: as long as the server asks for after a
rate limit, and twice as long as before after each further error. `TaskWithDelayThread::sleep`,
however, tests the pointer to the flag `stopping` and not the flag, and the pointer is never null in
a task: the worker goes on at once.
-/

namespace McpeLauncher.Telemetry

/-- The thread-local pointers of a thread. -/
structure ThreadLocals where
  currentCondVar : Option Nat
  currentIsStopping : Option Nat
  currentLock : Option Nat

namespace ThreadLocals

/-- `TaskWithDelayThread::sleep`: the timeouts with which it waits on the condition variable. The
pointers to the variable and to the lock must not be null where they are used. -/
def sleep (t : ThreadLocals) (time : Int) : Option (List Int) :=
  match t.currentLock with
  | none => none
  | some _ => if t.currentIsStopping = none then t.currentCondVar.map fun _ => [time] else some []

end ThreadLocals

/-- An attempt of `uploadTasks` to upload events: how it ended, for how long the worker is told to
sleep after it, and with which timeouts it waits. -/
structure Attempt where
  status : EventUploadStatus
  slept : Option Int
  waits : List Int
  deriving DecidableEq

namespace EventManager
variable (C : TaskContext ω)

/-- The loop of `uploadTasks` in a thread with the given pointers, with the attempts it makes. -/
def uploadTasksAttempts (t : ThreadLocals) : Nat → Int → EventManager → ω →
    Except Fault (EventManager × ω) × List Attempt
  | 0, _, _, _ => (.error .outOfFuel, [])
  | fuel + 1, nextBackoffTime, m, w =>
    if !C.isStopping w && (BufferedEventBatch.overFiles.hasEvents m.normalStorageBatch ||
        m.criticalStorageBatch.hasEvents) then
      let (m, w) := updateConfigIfNeeded C m w
      match m.uploadStored C (fuel + 1) w with
      | .error e => (.error e, [])
      | .ok none => (.ok (m, w), [])
      | .ok (some (status, m, w)) =>
        let nextBackoffTime :=
          if status.toBool || status.state = .ErrorRateLimit then baseBackoffTime
          else nextBackoffTime
        let attempt (slept : Option Int) : Attempt :=
          { status, slept, waits := (slept.bind t.sleep).getD [] }
        if status.toBool then
          let (r, attempts) := uploadTasksAttempts t fuel nextBackoffTime m w
          (r, attempt none :: attempts)
        else if status.state = .ErrorRateLimit then
          let (r, attempts) := uploadTasksAttempts t fuel nextBackoffTime m
            (C.sleep (status.retryAfter * 1000) w)
          (r, attempt (some (status.retryAfter * 1000)) :: attempts)
        else
          let (r, attempts) := uploadTasksAttempts t fuel (nextBackoffTime * 2) m
            (C.sleep nextBackoffTime w)
          (r, attempt (some nextBackoffTime) :: attempts)
    else (.ok (m, w), [])

/-- It is the loop of `uploadTasks`. -/
theorem uploadTasksAttempts_fst (t : ThreadLocals) (fuel : Nat) (time : Int) (m : EventManager)
    (w : ω) : (uploadTasksAttempts C t fuel time m w).1 = uploadTasksLoop C fuel time m w := by
  induction fuel generalizing time m w with
  | zero => rfl
  | succ fuel ih =>
    simp only [uploadTasksAttempts, uploadTasksLoop, bind, Except.bind, pure, Except.pure]
    split
    · cases hup : (updateConfigIfNeeded C m w).1.uploadStored C (fuel + 1)
        (updateConfigIfNeeded C m w).2 with
      | error e => rfl
      | ok r =>
        cases r with
        | none => rfl
        | some r =>
          simp only
          split
          · exact ih ..
          · split
            · exact ih ..
            · exact ih ..
    · rfl

/-- The attempts of one run of `uploadTasks`. -/
def attempts (t : ThreadLocals) (fuel : Nat) (m : EventManager) (w : ω) : List Attempt :=
  let (m, w) := updateConfigIfNeeded C m w
  (uploadTasksAttempts C t fuel baseBackoffTime m w).2

/-! ## How long to wait -/

end EventManager

end McpeLauncher.Telemetry
