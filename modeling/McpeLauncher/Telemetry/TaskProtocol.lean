import McpeLauncher.Telemetry.TaskWithDelayThread

/-!
# What the task thread promises

Every request of a run is served: in each reachable state with a request that is not, some thread
can go on, and the function starts after a bounded number of statements. In particular `requestRun`,
which joins the old thread while it holds the lock, never waits for a thread that needs the lock.
-/

namespace McpeLauncher.Telemetry

/-! ## Progress -/

/-- The number of statements of a worker before the function starts. -/
def WorkerPc.rank : WorkerPc → Nat
  | .locked => 11
  | .function => 10
  | .relock | .lock => 9
  | .loop => 8
  | .delay => 7
  | .waiting => 6
  | .take => 5
  | .takeImmediate => 4
  | .unlock => 3
  | .call => 2
  | .exiting => 1
  | _ => 0

/-- The number of statements of `requestRun` before it releases the lock. -/
def RequestPc.rank : RequestPc → Nat
  | .pending => 6
  | .immediate => 5
  | .test => 4
  | .start => 3
  | .join => 2
  | .create => 1
  | .release => 0

def TerminatePc.rank : TerminatePc → Nat
  | .immediate => 2
  | .stopping => 1
  | _ => 0

namespace TaskWithDelayThread

/-- Where the thread is that can be joined. -/
def current (s : TaskWithDelayThread) : WorkerPc :=
  match s.thread with
  | none => .gone
  | some i => s.workers i

/-- A bound for the number of statements before the function starts, if nobody takes the lock who
does not have to: first whoever holds the lock goes on, then the worker does. -/
def rank (s : TaskWithDelayThread) : Nat :=
  match s.mutex with
  | some (.request _ _ pc) => 20 + 2 * pc.rank + (if s.current = .exiting then 1 else 0)
  | some .terminate => 20 + s.terminator.rank
  | _ => s.current.rank

/-- Some thread can make a statement, not a new request, that brings the start of the function
nearer. -/
def Advances (s : TaskWithDelayThread) : Prop :=
  ∃ a s', s.step a = some s' ∧ (∀ caller immediate, a ≠ .requestRun caller immediate) ∧
    s'.requests = s.requests ∧ (s.requests ≤ s'.started ∨ s'.rank < s.rank)

variable {s s' : TaskWithDelayThread} {i : Nat} {w w' : WorkerPc}

theorem Inv.current (h : s.Inv i w) : s.current = w := by
  unfold TaskWithDelayThread.current
  by_cases hw : w = .gone
  · subst hw
    split
    · rfl
    · rw [h.workers, Function.update_eq_self]
  · rw [h.thread hw]
    exact h.workers_self

theorem rank_of_mutex (hm : s.mutex = none ∨ s.mutex = some (.worker i)) :
    s.rank = s.current.rank := by
  rcases hm with hm | hm <;> simp [rank, hm]

/-- The worker goes on, and no other thread holds the lock. -/
theorem Inv.advances_goto (h : s.Inv i w) (hw : w ≠ .gone)
    (hm : s.mutex = none ∨ s.mutex = some (.worker i))
    (hs : s.doThreadLoop i w = some (s'.goto i w')) (hthread : s'.thread = s.thread)
    (hm' : s'.mutex = none ∨ s'.mutex = some (.worker i))
    (hreq : s'.requests = s.requests) (hless : s.requests ≤ s'.started ∨ w'.rank < w.rank) :
    s.Advances := by
  refine ⟨.worker i, s'.goto i w', ?_, by simp, hreq, hless.imp_right fun hlt => ?_⟩
  · rw [TaskWithDelayThread.step, h.workers_self, hs]
  · rw [rank_of_mutex hm, rank_of_mutex (s := s'.goto i w') hm', h.current]
    simpa [TaskWithDelayThread.current, goto, hthread.trans (h.thread hw)] using hlt

theorem Inv.advances_free (h : s.Inv i w) (hne : ¬s.requests ≤ s.started) (hm : s.mutex = none) :
    s.Advances := by
  obtain ⟨hw, hreq, hsettled⟩ := h.lockOk hm
  have hserved := h.served
  rw [returned_of_mutex (i := i) (.inl hm)] at hserved
  obtain ⟨_, htask⟩ := hserved.resolve_left hne
  have hacq : ∀ w', (s.acquire (.worker i)).map (·.goto i w') =
      some ({ s with mutex := some (.worker i) }.goto i w') := fun _ =>
    acquire_map_eq_some.mpr ⟨hm, rfl⟩
  cases w with
  | lock => exact h.advances_goto (by simp) (.inl hm) (hacq _) rfl (.inr rfl) rfl (.inr (by decide))
  | waiting => exact h.advances_goto (by simp) (.inl hm) (hacq _) rfl (.inr rfl) rfl (.inr (by decide))
  | relock => exact h.advances_goto (by simp) (.inl hm) (hacq _) rfl (.inr rfl) rfl (.inr (by decide))
  | function => exact h.advances_goto (by simp) (.inl hm) rfl rfl (.inl hm) rfl (.inr (by decide))
  | call =>
    exact h.advances_goto (by simp) (.inl hm) rfl rfl (.inl hm) rfl (.inl (Nat.le_refl _))
  | requesting => exact absurd rfl hreq
  | loop | delay | take | takeImmediate | unlock | locked | stop | leave => cases hw
  | exiting | gone =>
    rw [hsettled.pending rfl] at htask
    rcases htask with hs | hs <;> cases hs

theorem Inv.advances_worker (h : s.Inv i w) (hne : ¬s.requests ≤ s.started) (hw : w.holds = true) :
    s.Advances := by
  have hm := h.mutex_of_holds hw
  obtain ⟨hsettled, hstop⟩ := h.settled_of_holds hw
  cases w with
  | loop =>
    have hp := ((h.served_of_holds rfl rfl).resolve_left hne).2
    have hs : s.doThreadLoop i .loop = some (s.goto i .delay) := by
      simp only [doThreadLoop, hp, if_true]
    exact h.advances_goto (by simp) (.inr hm) hs rfl (.inr hm) rfl (.inr (by decide))
  | delay =>
    cases hd : !s.runImmediately && !s.stopping with
    | true =>
      have hs : s.doThreadLoop i .delay = some (s.release.goto i .waiting) := by
        simp only [doThreadLoop, hd, if_true]
      exact h.advances_goto (by simp) (.inr hm) hs rfl (.inl rfl) rfl (.inr (by decide))
    | false =>
      have hs : s.doThreadLoop i .delay = some (s.goto i .take) := by
        simp only [doThreadLoop, hd, Bool.false_eq_true, if_false]
      exact h.advances_goto (by simp) (.inr hm) hs rfl (.inr hm) rfl (.inr (by decide))
  | take => exact h.advances_goto (by simp) (.inr hm) rfl rfl (.inr hm) rfl (.inr (by decide))
  | takeImmediate => exact h.advances_goto (by simp) (.inr hm) rfl rfl (.inr hm) rfl (.inr (by decide))
  | unlock => exact h.advances_goto (by simp) (.inr hm) rfl rfl (.inl rfl) rfl (.inr (by decide))
  | locked => exact h.advances_goto (by simp) (.inr hm) rfl rfl (.inl rfl) rfl (.inr (by decide))
  | stop =>
    have hp := ((h.served_of_holds rfl rfl).resolve_left hne).2
    rw [hstop rfl] at hp
    cases hp
  | leave =>
    have hp := ((h.served_of_holds rfl rfl).resolve_left hne).2
    rw [hsettled.pending rfl] at hp
    cases hp
  | lock | waiting | relock | function | call | requesting | exiting | gone => cases hw

/-- Joining waits for nothing but the exit of a worker that does not need the lock any more. -/
theorem Inv.advances_join (h : s.Inv i w) (hm : s.mutex = some (.request caller immediate .join)) :
    (w = .gone ∧ s.step .requester =
      some { s with thread := none, mutex := some (.request caller immediate .create) }) ∨
    (w = .exiting ∧ s.step (.worker i) = some (s.goto i .gone)) := by
  obtain ⟨_, _, hst⟩ := (h.lockOk hm).request.1
  have hfree : w.holds = false := by
    have hl := h.lockOk hm
    cases caller with
    | none => exact hl.1
    | some j => rw [hl.2.1]; rfl
  cases w with
  | exiting =>
    refine .inr ⟨rfl, ?_⟩
    rw [TaskWithDelayThread.step, h.workers_self]
    rfl
  | gone =>
    refine .inl ⟨rfl, ?_⟩
    have hgone : ∀ j, s.workers j = .gone := fun j => by rw [h.workers, Function.update_eq_self]
    simp only [TaskWithDelayThread.step, hm, TaskWithDelayThread.requestRun, TaskWithDelayThread.join]
    cases ht : s.thread with
    | none => simp [← ht]
    | some j => simp [hgone]
  | leave => cases hfree
  | lock | loop | delay | waiting | take | takeImmediate | unlock | call | function | locked
  | requesting | relock | stop => cases hst

theorem Inv.advances_request (h : s.Inv i w) (hm : s.mutex = some (.request caller immediate pc)) :
    s.Advances := by
  have hok := (h.lockOk hm).request.1
  have hrank : s.rank = 20 + 2 * pc.rank + (if s.current = .exiting then 1 else 0) := by
    simp [rank, hm]
  have hstep : s.step .requester = s.requestRun caller immediate pc := by
    simp only [TaskWithDelayThread.step, hm]
  -- the statements before the join change neither the thread nor the worker
  have hnext : ∀ {s₁ : TaskWithDelayThread} {pc' : RequestPc},
      s.requestRun caller immediate pc =
        some { s₁ with mutex := some (.request caller immediate pc') } →
      s₁.requests = s.requests → s₁.current = s.current → pc'.rank < pc.rank → s.Advances := by
    intro s₁ pc' hs hreq hcur hlt
    refine ⟨.requester, _, hstep.trans hs, by simp, hreq, .inr ?_⟩
    have hrank' : { s₁ with mutex := some (.request caller immediate pc') }.rank =
        20 + 2 * pc'.rank + (if s₁.current = .exiting then 1 else 0) := rfl
    rw [hrank, hrank', hcur]
    omega
  cases pc with
  | pending => exact hnext rfl rfl rfl (by decide)
  | immediate => exact hnext rfl rfl rfl (by decide)
  | test =>
    apply hnext rfl rfl rfl
    split <;> decide
  | start => exact hnext rfl rfl rfl (by decide)
  | join =>
    rcases h.advances_join hm with ⟨rfl, hs⟩ | ⟨rfl, hs⟩
    · refine ⟨.requester, _, hs, by simp, rfl, .inr ?_⟩
      rw [hrank]
      simp [rank, TaskWithDelayThread.current, RequestPc.rank]
      omega
    · refine ⟨.worker i, _, hs, by simp, rfl, .inr ?_⟩
      rw [hrank, h.current]
      simp [rank, hm, TaskWithDelayThread.current, goto, h.thread]
  | create =>
    obtain ⟨_, _, rfl, hnone⟩ := hok
    refine ⟨.requester, _, hstep.trans (if_pos hnone), by simp, rfl, .inr ?_⟩
    rw [hrank]
    simp [rank, TaskWithDelayThread.current, goto, RequestPc.rank]
    omega
  | release =>
    have hless : ∀ w : WorkerPc, w.rank < 20 := fun w => by cases w <;> decide
    have hlt : ∀ {s₁ : TaskWithDelayThread}, s₁.mutex = none → s₁.rank < s.rank := by
      intro s₁ hm₁
      rw [hrank, rank_of_mutex (i := i) (.inl hm₁)]
      have := hless s₁.current
      omega
    cases caller with
    | none => exact ⟨.requester, _, hstep.trans rfl, by simp, rfl, .inr (hlt rfl)⟩
    | some j => exact ⟨.requester, _, hstep.trans rfl, by simp, rfl, .inr (hlt rfl)⟩

theorem Inv.advances_terminate (h : s.Inv i w) (hm : s.mutex = some .terminate) : s.Advances := by
  have hrank : s.rank = 20 + s.terminator.rank := by simp [rank, hm]
  have hless : ∀ w : WorkerPc, w.rank < 20 := fun w => by cases w <;> decide
  have hholds := h.terminating.mpr hm
  cases ht : s.terminator with
  | immediate =>
    refine ⟨.terminator, _, (congrArg s.terminate ht).trans rfl, by simp, rfl, .inr ?_⟩
    rw [hrank, ht]
    simp [rank, hm, TerminatePc.rank]
  | stopping =>
    refine ⟨.terminator, _, (congrArg s.terminate ht).trans rfl, by simp, rfl, .inr ?_⟩
    rw [hrank, ht]
    simp [rank, hm, TerminatePc.rank]
  | release =>
    refine ⟨.terminator, _, (congrArg s.terminate ht).trans rfl, by simp, rfl, .inr ?_⟩
    rw [hrank, rank_of_mutex (i := i) (.inl rfl)]
    exact Nat.lt_of_lt_of_le (hless _) (Nat.le_add_right _ _)
  | notCalled | join | done =>
    rw [ht] at hholds
    cases hholds

/-- While a request is not served, some thread can go on towards the start of the function. -/
theorem Inv.advances (h : s.Inv i w) (hne : ¬s.requests ≤ s.started) : s.Advances := by
  cases hm : s.mutex with
  | none => exact h.advances_free hne hm
  | some holder =>
    cases holder with
    | worker j => exact h.advances_worker hne (h.lockOk hm).2.1
    | request caller immediate pc => exact h.advances_request hm
    | terminate => exact h.advances_terminate hm

/-- Without further requests all of them can be served. -/
theorem Inv.serves (h : s.Inv i w) : ∃ actions s',
    Runs.run TaskWithDelayThread.step s actions = some s' ∧
    (∀ a ∈ actions, ∀ caller immediate, a ≠ .requestRun caller immediate) ∧
    s'.requests = s.requests ∧ s.requests ≤ s'.started := by
  induction hn : s.rank using Nat.strongRecOn generalizing s i w with
  | _ n ih =>
    by_cases hserved : s.requests ≤ s.started
    · exact ⟨[], s, rfl, by simp, rfl, hserved⟩
    · obtain ⟨a, s₁, hstep, ha, hreq, hdone | hlt⟩ := h.advances hserved
      · refine ⟨[a], s₁, by simp [Runs.run_cons, hstep], fun b hb => ?_, hreq, hdone⟩
        rw [List.mem_singleton.mp hb]
        exact ha
      · obtain ⟨i₁, w₁, h₁⟩ := h.step hstep
        obtain ⟨actions, s', hrun, hactions, hreq', hdone⟩ := ih _ (hn ▸ hlt) h₁ rfl
        refine ⟨a :: actions, s', by rw [Runs.run_cons, hstep]; exact hrun, fun b hb => ?_,
          hreq'.trans hreq, hreq ▸ hdone⟩
        rcases List.mem_cons.mp hb with rfl | hb
        · exact ha
        · exact hactions b hb

/-! ## The protocol -/

theorem Inv.eq_of_executes (h : s.Inv i w) (hj : (s.workers j).executes = true) : j = i :=
  h.eq_of_ne_gone fun hgone => by rw [hgone] at hj; cases hj

theorem Inv.pending_of_free (h : s.Inv i w) (hm : s.mutex = none) (hrun : s.running = false) :
    s.hasPendingTask = false := by
  obtain ⟨_, _, hsettled⟩ := h.lockOk hm
  apply hsettled.pending
  simpa [hrun] using hsettled.running

/-- **The task thread**, in every reachable state. One execution of the function at most is in
progress; nothing is pending without a running worker while the lock is free; a `requestRun` that
has released the lock is followed by an execution that started later, or the worker is running and
its task is pending or about to be executed; a `requestRun` that joins waits for a worker that only
has to exit; and if nobody requests a run, the threads can go on until all requests are served. -/
theorem protocol (h : s.Reachable) :
    (∀ i j, (s.workers i).executes = true → (s.workers j).executes = true → i = j) ∧
    (s.mutex = none → s.running = false → s.hasPendingTask = false) ∧
    (∀ r < s.returned, r < s.started ∨ s.running = true ∧
      (s.hasPendingTask = true ∨ ∃ i, (s.workers i).tookTask = true)) ∧
    (∀ caller immediate, s.mutex = some (.request caller immediate .join) →
      (s.step .requester).isSome = true ∨
        ∃ i, s.thread = some i ∧ caller ≠ some i ∧ s.workers i = .exiting ∧
          (s.step (.worker i)).isSome = true) ∧
    ∃ actions s', Runs.run step s actions = some s' ∧
      (∀ a ∈ actions, ∀ caller immediate, a ≠ .requestRun caller immediate) ∧
      s.requests ≤ s'.started := by
  obtain ⟨i, w, hinv⟩ := h.inv
  refine ⟨fun j k hj hk => ?_, hinv.pending_of_free, fun r hr => ?_, fun caller immediate hm => ?_, ?_⟩
  · rw [hinv.eq_of_executes hj, hinv.eq_of_executes hk]
  · rcases hinv.served with hs | ⟨hrun, hs⟩
    · exact .inl (Nat.lt_of_lt_of_le hr hs)
    · refine .inr ⟨hrun, hs.imp_right fun hs => ⟨i, ?_⟩⟩
      rw [hinv.workers_self]
      exact hs
  · rcases hinv.advances_join hm with ⟨_, hs⟩ | ⟨rfl, hs⟩
    · exact .inl (by rw [hs]; rfl)
    · refine .inr ⟨i, hinv.thread (by simp), ?_, hinv.workers_self, by rw [hs]; rfl⟩
      rintro rfl
      cases (hinv.lockOk hm).2.1
  · obtain ⟨actions, s', hrun, hactions, _, hdone⟩ := hinv.serves
    exact ⟨actions, s', hrun, hactions, hdone⟩

/-- A request from another thread, and one from the function. -/
def twoRequests : List Action :=
  [.requestRun none true] ++ List.replicate 7 .requester ++ List.replicate 7 (.worker 0) ++
    [.requestRun (some 0) true] ++ List.replicate 4 .requester ++ List.replicate 8 (.worker 0)

/-- The worker of the first request has started the function again for the second one. -/
theorem protocol_twoRequests : ∃ s, Runs.run step new twoRequests = some s ∧
    s.workers 0 = .function ∧ s.started = 2 ∧
    (∀ i j, (s.workers i).executes = true → (s.workers j).executes = true → i = j) ∧
    (s.mutex = none → s.running = false → s.hasPendingTask = false) := by
  have hrun : (Runs.run step new twoRequests).map (fun s => (s.workers 0, s.started)) =
      some (.function, 2) := by rfl
  obtain ⟨s, hs, hval⟩ := Option.map_eq_some_iff.mp hrun
  rw [Prod.mk.injEq] at hval
  have hprotocol := protocol ⟨twoRequests, hs⟩
  exact ⟨s, hs, hval.1, hval.2, hprotocol.1, hprotocol.2.1⟩

end TaskWithDelayThread

end McpeLauncher.Telemetry
