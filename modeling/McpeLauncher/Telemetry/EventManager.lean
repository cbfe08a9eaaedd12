import McpeLauncher.Telemetry.EventUploader
import McpeLauncher.Telemetry.MultiFileRun

/-!
# The event manager

`cll::EventManager` has three batches: events in memory for immediate upload, and two batches in
files, of which the normal one is buffered. Two tasks empty them. The loops of the tasks end if
every upload makes progress, that is, if each stored event fits into a request.
-/

namespace McpeLauncher.Telemetry
open ByteLines PosixFiles

structure EventManager where
  uploaderMaxEvents : Nat
  uploaderMaxSize : Nat
  normalStorageBatch : BufferedEventBatch MultiFileEventBatch
  criticalStorageBatch : MultiFileEventBatch
  realtimeMemoryBatch : MemoryEventBatch

/-- What the tasks call: a download of the configuration, which may give new values of
`getMaxEventsPerPost` and `getMaxEventSizeInBytes`, the task threads, and the flags of an event. -/
structure TaskContext (ω : Type) where
  uploader : EventUploader ω
  downloadConfigs : ω → Option (Nat × Nat) × ω
  isStopping : ω → Bool
  sleep : (milliseconds : Int) → ω → ω
  requestRun : ω → ω
  persistenceCritical : Event → Bool

namespace EventManager

def onConfigurationUpdated (m : EventManager) (maxEvents maxSize : Nat) : EventManager :=
  { m with
    normalStorageBatch := { m.normalStorageBatch with
      wrapped := m.normalStorageBatch.wrapped.setFileLimits maxEvents maxSize }
    criticalStorageBatch := m.criticalStorageBatch.setFileLimits maxEvents maxSize
    uploaderMaxEvents := maxEvents
    uploaderMaxSize := maxSize }

variable (C : TaskContext ω)

def updateConfigIfNeeded (m : EventManager) (w : ω) : EventManager × ω :=
  match C.downloadConfigs w with
  | (none, w) => (m, w)
  | (some (maxEvents, maxSize), w) => (m.onConfigurationUpdated maxEvents maxSize, w)

/-- The upload in one round of `uploadTasks`: critical events go first. -/
def uploadStored (fuel : Nat) (m : EventManager) (w : ω) :
    Except Fault (Option (EventUploadStatus × EventManager × ω)) := do
  if m.criticalStorageBatch.hasEvents then
    let (status, b, w) ← C.uploader.sendEvents MultiFileEventBatch.batch m.uploaderMaxEvents
      m.uploaderMaxSize fuel m.criticalStorageBatch w
    return some (status, { m with criticalStorageBatch := b }, w)
  else if BufferedEventBatch.overFiles.hasEvents m.normalStorageBatch then
    let (status, b, w) ← C.uploader.sendEvents BufferedEventBatch.overFiles m.uploaderMaxEvents
      m.uploaderMaxSize fuel m.normalStorageBatch w
    return some (status, { m with normalStorageBatch := b }, w)
  else return none

def baseBackoffTime : Int := 5000

/-- The loop of `uploadTasks`, for at most so many rounds. -/
def uploadTasksLoop : Nat → Int → EventManager → ω → Except Fault (EventManager × ω)
  | 0, _, _, _ => .error .outOfFuel
  | fuel + 1, nextBackoffTime, m, w =>
    if !C.isStopping w && (BufferedEventBatch.overFiles.hasEvents m.normalStorageBatch ||
        m.criticalStorageBatch.hasEvents) then do
      let (m, w) := updateConfigIfNeeded C m w
      match ← m.uploadStored C (fuel + 1) w with
      | none => return (m, w)
      | some (status, m, w) =>
        let nextBackoffTime :=
          if status.toBool || status.state = .ErrorRateLimit then baseBackoffTime
          else nextBackoffTime
        if status.toBool then uploadTasksLoop fuel nextBackoffTime m w
        else if status.state = .ErrorRateLimit then
          uploadTasksLoop fuel nextBackoffTime m (C.sleep (status.retryAfter * 1000) w)
        else uploadTasksLoop fuel (nextBackoffTime * 2) m (C.sleep nextBackoffTime w)
    else return (m, w)

def uploadTasks (fuel : Nat) (m : EventManager) (w : ω) : Except Fault (EventManager × ω) :=
  let (m, w) := updateConfigIfNeeded C m w
  uploadTasksLoop C fuel baseBackoffTime m w

/-- Where an event goes that could not be uploaded immediately. -/
def store (m : EventManager) (ev : Event) : EventManager :=
  if C.persistenceCritical ev then
    { m with criticalStorageBatch := (m.criticalStorageBatch.addEvent ev).2 }
  else
    { m with normalStorageBatch :=
        (m.normalStorageBatch.addEvent MultiFileEventBatch.batch ev).2 }

/-- `uploadRealtimeTasks`, for at most so many rounds. -/
def uploadRealtimeTasks : Nat → EventManager → ω → Except Fault (EventManager × ω)
  | 0, _, _ => .error .outOfFuel
  | fuel + 1, m, w =>
    if m.realtimeMemoryBatch.hasEvents then do
      let (m, w) := updateConfigIfNeeded C m w
      let (status, b, w) ← C.uploader.sendEvents MemoryEventBatch.batch m.uploaderMaxEvents
        m.uploaderMaxSize (fuel + 1) m.realtimeMemoryBatch w
      if status.toBool then uploadRealtimeTasks fuel { m with realtimeMemoryBatch := b } w
      else
        let (items, b) := b.transferAllEvents
        uploadRealtimeTasks fuel (items.foldl (store C) { m with realtimeMemoryBatch := b })
          (C.requestRun w)
    else return (m, w)

end EventManager

/-! ## Reachable contents -/

/-- The calls on the normal storage batch: those on the buffer, the limits that
`onConfigurationUpdated` sets in the wrapped batch, and the end of the process, which flushes the
buffer, with a new start. -/
inductive StorageCall
  | buffered (call : BufferedCall)
  | setFileLimits (maxEvents maxSize : Nat)
  | restart (fileMaxEvents fileMaxSize : Nat)

namespace StorageRun

def step (s : BufferedRun MultiFileEventBatch MultiFileEventList) :
    StorageCall → Option (BufferedRun MultiFileEventBatch MultiFileEventList)
  | .buffered call => s.step MultiFileEventBatch.batch call
  | .setFileLimits maxEvents maxSize =>
    some { s with batch := { s.batch with wrapped := s.batch.wrapped.setFileLimits maxEvents maxSize } }
  | .restart maxEvents maxSize =>
    let b := (s.batch.flushInternal MultiFileEventBatch.batch).wrapped
    some { s with batch := ⟨.new b.dir b.filePrefix b.fileSuffix maxEvents maxSize,
                             { items := [], limit := s.batch.mem.limit }⟩
                  inFlight := none }

def init (dir : Dir FileName) (filePrefix fileSuffix : FileName)
    (fileMaxEvents fileMaxSize bufferedItemCount : Nat) :
    BufferedRun MultiFileEventBatch MultiFileEventList where
  batch := ⟨.new dir filePrefix fileSuffix fileMaxEvents fileMaxSize, ⟨[], bufferedItemCount⟩⟩
  inFlight := none
  accepted := []
  acked := []

open MultiFileEventBatch BufferedRun

theorem wrappedInv_step (s s' : BufferedRun MultiFileEventBatch MultiFileEventList)
    (h : WrappedInv fifo s) (hstep : step s c = some s') : WrappedInv fifo s' := by
  cases c with
  | buffered call => exact h.step hstep
  | setFileLimits maxEvents maxSize =>
    cases hstep
    obtain ⟨old, new, hs⟩ := h.valid
    refine ⟨⟨old, new, hs.setFileLimits maxEvents maxSize⟩, fun l hl lw hlw => ?_⟩
    obtain ⟨old, new, hs, hout⟩ := h.inFlight l hl lw hlw
    exact ⟨old, new, hs.setFileLimits .., Stores.handsOut_setFileLimits hout ..⟩
  | restart maxEvents maxSize =>
    cases hstep
    obtain ⟨old, new, hs⟩ := h.flush.valid
    exact ⟨⟨old, new, new_stores hs.dir maxEvents maxSize⟩, by simp⟩

end StorageRun

namespace MultiFileEventBatch

/-- States that a run from a directory without batch files reaches. -/
def Reachable (b : MultiFileEventBatch) : Prop :=
  ∃ dir pre suf maxEvents maxSize, ∃ calls : List MultiFileCall,
    (∀ name ∈ dir, batchId pre suf name = none) ∧
    b = (calls.foldl MultiFileRun.step (MultiFileRun.init dir pre suf maxEvents maxSize)).batch

theorem Reachable.stores {b : MultiFileEventBatch} (h : b.Reachable) :
    ∃ old new, b.Stores old new := by
  obtain ⟨dir, pre, suf, c, z, calls, hdir, rfl⟩ := h
  obtain ⟨old, new, hinv⟩ := (MultiFileRun.inv_init hdir c z).foldl calls
  exact ⟨old, new, hinv.stores⟩

/-- Each older file holds an event. -/
def NoEmptyFile (b : MultiFileEventBatch) : Prop :=
  (∀ o ∈ b.oldestBatch, o.hasEvents = true) ∧
    ∀ id ∈ b.oldBatches, b.dir.content (b.getBatchFileName id) ≠ []

theorem noEmptyFile_of_nil {b : MultiFileEventBatch} (ho : b.oldestBatch = none)
    (hb : b.oldBatches = []) : b.NoEmptyFile := by
  simp [NoEmptyFile, ho, hb]

theorem Stores.ne_nil_of_noEmptyFile {b : MultiFileEventBatch} {new : List Event}
    (hs : b.Stores old new) (h : b.NoEmptyFile) : ∀ f ∈ old, f.2 ≠ [] := by
  have hfile : ∀ f ∈ old, f.1 ∈ b.oldBatches → f.2 ≠ [] := fun f hf hid hnil =>
    h.2 f.1 hid (by rw [hs.files f hf, hnil]; rfl)
  have hold := hs.oldest
  unfold OldestOk at hold
  cases ho : b.oldestBatch with
  | none =>
    rw [ho] at hold
    exact fun f hf => hfile f hf (hold ▸ List.mem_map_of_mem hf)
  | some o =>
    rw [ho] at hold
    obtain ⟨id, es, rest, rfl, hids, hholds, _⟩ := hold
    intro f hf
    rcases List.mem_cons.mp hf with rfl | hrest
    · exact fun hnil => hholds.hasEvents_iff.mp (h.1 o ho) (by simpa using hnil)
    · exact hfile f hf (hids ▸ List.mem_map_of_mem hrest)

end MultiFileEventBatch

namespace BufferedEventBatch

/-- States that a run of the normal storage batch from a directory without batch files reaches. -/
def Reachable (b : BufferedEventBatch MultiFileEventBatch) : Prop :=
  ∃ dir pre suf maxEvents maxSize limit calls s, (∀ name ∈ dir, batchId pre suf name = none) ∧
    Runs.run StorageRun.step (StorageRun.init dir pre suf maxEvents maxSize limit) calls = some s ∧
    b = s.batch

theorem Reachable.stores {b : BufferedEventBatch MultiFileEventBatch} (h : b.Reachable) :
    ∃ old new, b.wrapped.Stores old new := by
  obtain ⟨dir, pre, suf, c, z, limit, calls, s, hdir, hrun, rfl⟩ := h
  have hinit : BufferedRun.WrappedInv MultiFileEventBatch.fifo
      (StorageRun.init dir pre suf c z limit) :=
    ⟨⟨[], [], MultiFileEventBatch.new_stores_empty hdir c z⟩, fun _ hl => by cases hl⟩
  exact (Runs.inv_of_run (fun s c s' => StorageRun.wrappedInv_step (c := c) s s') hinit hrun).valid

end BufferedEventBatch

/-! ## The tasks end -/

namespace EventManager
open MultiFileEventBatch

structure Reachable (m : EventManager) : Prop where
  normal : m.normalStorageBatch.Reachable
  critical : m.criticalStorageBatch.Reachable

/-- The limits for requests now and after each download of the configuration: at least one event
of at most `size` bytes. -/
structure LimitsAtLeast (C : TaskContext ω) (m : EventManager) (size : Nat) : Prop where
  maxEvents : 1 ≤ m.uploaderMaxEvents
  maxSize : size ≤ m.uploaderMaxSize
  downloaded : ∀ w c z w', C.downloadConfigs w = (some (c, z), w') → 1 ≤ c ∧ size ≤ z

/-- Every event fits into a request of that size, and each older file holds an event. -/
structure AllFit (m : EventManager) (size : Nat) : Prop where
  critical : ∀ l ∈ m.criticalStorageBatch.storedLines, l.length ≤ min size FileEventBatch.readCap
  normal : ∀ l ∈ m.normalStorageBatch.wrapped.storedLines,
    l.length ≤ min size FileEventBatch.readCap
  memory : ∀ l ∈ m.normalStorageBatch.mem.storedLines, l.length ≤ size
  realtime : ∀ l ∈ m.realtimeMemoryBatch.storedLines, l.length ≤ size
  criticalFiles : m.criticalStorageBatch.NoEmptyFile
  normalFiles : m.normalStorageBatch.wrapped.NoEmptyFile

variable {C : TaskContext ω} {m : EventManager} {size : Nat}

theorem LimitsAtLeast.update (h : LimitsAtLeast C m size) (w : ω) :
    LimitsAtLeast C (updateConfigIfNeeded C m w).1 size := by
  unfold updateConfigIfNeeded
  split
  · exact h
  · next c z _ hdown =>
    obtain ⟨hc, hz⟩ := h.downloaded w c z _ hdown
    exact ⟨hc, hz, h.downloaded⟩

end EventManager

/-- The files hold `n` events, which can be uploaded in requests of the size: no older file is
empty, and every event fits. -/
def MultiFileEventBatch.Drains (b : MultiFileEventBatch) (size n : Nat) : Prop :=
  ∃ old new, b.Stores old new ∧ (∀ f ∈ old, f.2 ≠ []) ∧
    (∀ e ∈ eventsOf old new, e.record.length ≤ min size FileEventBatch.readCap) ∧
    (eventsOf old new).length = n

namespace MultiFileEventBatch.Drains
variable {b : MultiFileEventBatch} {U : EventUploader ω}

theorem hasEvents_iff (h : b.Drains size n) : b.hasEvents = true ↔ 0 < n := by
  obtain ⟨old, new, hs, hne, _, rfl⟩ := h
  rw [hs.hasEvents_iff hne, List.length_pos_iff]

theorem setFileLimits (h : b.Drains size n) (c z : Nat) : (b.setFileLimits c z).Drains size n := by
  obtain ⟨old, new, hs, h⟩ := h
  exact ⟨old, new, hs.setFileLimits c z, h⟩

theorem sendEvents (h200 : U.Answers200) (h : b.Drains size n) (hn : 0 < n) (hc : 1 ≤ c)
    (hz : size ≤ z) (w : ω) : ∃ b' w' n', n' < n ∧ b'.Drains size n' ∧
      ∀ fuel, U.sendEvents batch c z (fuel + 1) b w = .ok (.success, b', w') := by
  obtain ⟨old, new, hs, hne, hfits, rfl⟩ := h
  obtain ⟨e, es, hes⟩ := List.exists_cons_of_ne_nil (List.length_pos_iff.mp hn)
  obtain ⟨k, hk, b', w', old', new', hsend, hs', hevents, hne', hpos⟩ :=
    hs.sendEvents_spec h200 (hs.not_stuck hne) hes hc z w
  have hfirst : e.record.length ≤ min size FileEventBatch.readCap :=
    hfits e (hes ▸ List.mem_cons_self)
  have := hpos.mpr (hfirst.trans (by omega))
  refine ⟨b', w', _, ?_, ⟨old', new', hs', hne' hne, fun e he => ?_, rfl⟩, hsend⟩
  · rw [hevents, List.length_drop]
    omega
  · exact hfits e (List.mem_of_mem_drop (hevents ▸ he))

end MultiFileEventBatch.Drains

/-- The same for the buffered batch. -/
def BufferedEventBatch.Drains (b : BufferedEventBatch MultiFileEventBatch) (size n : Nat) : Prop :=
  (∀ e ∈ b.mem.items, e.record.length ≤ size) ∧
    ∃ k, b.wrapped.Drains size k ∧ k + b.mem.items.length = n

namespace BufferedEventBatch.Drains
open MultiFileEventBatch
variable {b : BufferedEventBatch MultiFileEventBatch} {U : EventUploader ω}

theorem hasEvents_iff (h : b.Drains size n) : overFiles.hasEvents b = true ↔ 0 < n := by
  obtain ⟨_, k, hk, rfl⟩ := h
  have hfiles := hk.hasEvents_iff
  change (b.mem.hasEvents || b.wrapped.hasEvents) = true ↔ _
  rw [Bool.or_eq_true, hfiles, MemoryEventBatch.hasEvents]
  simp only [Bool.not_eq_true', List.isEmpty_eq_false_iff, ← List.length_pos_iff]
  omega

theorem sendEvents (h200 : U.Answers200) (h : b.Drains size n) (hn : 0 < n) (hc : 1 ≤ c)
    (hsize : 1 ≤ size) (hz : size ≤ z) (w : ω) : ∃ b' w' n', n' < n ∧ b'.Drains size n' ∧
      ∀ fuel, U.sendEvents overFiles c z (fuel + 1) b w = .ok (.success, b', w') := by
  obtain ⟨hmem, _, ⟨old, new, hs, hne, hfits, rfl⟩, rfl⟩ := h
  have hns := hs.not_stuck hne
  have hsome : (¬b.wrapped.Stuck ∧ eventsOf old new ≠ []) ∨ b.mem.items ≠ [] := by
    by_contra hnot
    rw [not_or, not_and_not_right, not_not] at hnot
    rw [hnot.1 hns, hnot.2] at hn
    exact absurd hn (Nat.lt_irrefl _)
  obtain ⟨k, hk, j, hj, wrapped', w', old', new', hsend, hs', hevents, hne', hpos⟩ :=
    sendEvents_spec h200 hs hc (hsize.trans hz) hsome w
  have hhead : b.HeadFits z := by
    by_cases hfiles : ¬b.wrapped.Stuck ∧ eventsOf old new ≠ []
    · obtain ⟨e, es, hes⟩ := List.exists_cons_of_ne_nil hfiles.2
      rw [headFits_files hs hfiles, hs.storedLines, hes, List.map_cons, firstFits_cons]
      exact (hfits e (hes ▸ List.mem_cons_self)).trans (by omega)
    · obtain ⟨e, es, hes⟩ := List.exists_cons_of_ne_nil (hsome.resolve_left hfiles)
      rw [headFits_memory hs hfiles, MemoryEventBatch.storedLines, hes, List.map_cons,
        firstFits_cons]
      exact (hmem e (hes ▸ List.mem_cons_self)).trans hz
  have := hpos.mpr hhead
  refine ⟨_, w', (eventsOf old' new').length + (b.mem.items.drop j).length, ?_,
    ⟨fun e he => hmem e (List.mem_of_mem_drop he), _, ⟨old', new', hs', hne' hne, fun e he => ?_,
      rfl⟩, rfl⟩, hsend⟩
  · rw [hevents, List.length_drop, List.length_drop]
    omega
  · exact hfits e (List.mem_of_mem_drop (hevents ▸ he))

end BufferedEventBatch.Drains

namespace EventManager
variable {C : TaskContext ω} {m : EventManager} {size : Nat}

/-- The stored events, `n` in number, can be uploaded. -/
def Drains (m : EventManager) (size n : Nat) : Prop :=
  ∃ i j, m.criticalStorageBatch.Drains size i ∧ m.normalStorageBatch.Drains size j ∧ i + j = n

theorem Drains.update (h : m.Drains size n) (w : ω) :
    (updateConfigIfNeeded C m w).1.Drains size n := by
  obtain ⟨i, j, hi, ⟨hmem, k, hk, hkj⟩, hij⟩ := h
  unfold updateConfigIfNeeded
  split
  · exact ⟨i, j, hi, ⟨hmem, k, hk, hkj⟩, hij⟩
  · exact ⟨i, j, hi.setFileLimits .., ⟨hmem, k, hk.setFileLimits .., hkj⟩, hij⟩

/-- A round of `uploadTasks` with events to upload removes at least one. -/
theorem Drains.uploadStored (h200 : C.uploader.Answers200) (h : m.Drains size n) (hn : 0 < n)
    (hsize : 1 ≤ size) (hlim : LimitsAtLeast C m size) (w : ω) :
    ∃ m' w' n', n' < n ∧ m'.Drains size n' ∧ LimitsAtLeast C m' size ∧
      ∀ fuel, m.uploadStored C (fuel + 1) w = .ok (some (.success, m', w')) := by
  obtain ⟨i, j, hi, hj, rfl⟩ := h
  by_cases hpos : 0 < i
  · obtain ⟨b', w', i', hlt, hi', hsend⟩ := hi.sendEvents h200 hpos hlim.maxEvents hlim.maxSize w
    refine ⟨{ m with criticalStorageBatch := b' }, w', i' + j, by omega, ⟨i', j, hi', hj, rfl⟩,
      ⟨hlim.maxEvents, hlim.maxSize, hlim.downloaded⟩, fun fuel => ?_⟩
    rw [EventManager.uploadStored, if_pos (hi.hasEvents_iff.mpr hpos), hsend]
    rfl
  · obtain ⟨b', w', j', hlt, hj', hsend⟩ :=
      hj.sendEvents h200 (by omega) hlim.maxEvents hsize hlim.maxSize w
    refine ⟨{ m with normalStorageBatch := b' }, w', i + j', by omega, ⟨i, j', hi, hj', rfl⟩,
      ⟨hlim.maxEvents, hlim.maxSize, hlim.downloaded⟩, fun fuel => ?_⟩
    rw [EventManager.uploadStored, if_neg (mt hi.hasEvents_iff.mp hpos),
      if_pos (hj.hasEvents_iff.mpr (by omega)), hsend]
    rfl

theorem Drains.uploadTasksLoop (h200 : C.uploader.Answers200) (h : m.Drains size n)
    (hsize : 1 ≤ size) (hlim : LimitsAtLeast C m size) (t : Int) (w : ω) :
    ∃ fuel r, uploadTasksLoop C fuel t m w = .ok r := by
  induction n using Nat.strong_induction_on generalizing m t w with
  | _ n ih =>
    by_cases hn : 0 < n
    · obtain ⟨m', w', n', hlt, h', hlim', hup⟩ :=
        (h.update w).uploadStored h200 hn hsize (hlim.update w) (updateConfigIfNeeded C m w).2
      obtain ⟨fuel, r, hloop⟩ := ih n' hlt h' hlim' baseBackoffTime w'
      by_cases hrun : (!C.isStopping w && (BufferedEventBatch.overFiles.hasEvents
          m.normalStorageBatch || m.criticalStorageBatch.hasEvents)) = true
      · refine ⟨fuel + 1, r, ?_⟩
        rw [EventManager.uploadTasksLoop, if_pos hrun]
        simp only [hup, bind, Except.bind]
        exact hloop
      · exact ⟨1, _, by rw [EventManager.uploadTasksLoop, if_neg hrun]; rfl⟩
    · obtain ⟨i, j, hi, hj, rfl⟩ := h
      refine ⟨1, (m, w), ?_⟩
      rw [EventManager.uploadTasksLoop, if_neg]
      · rfl
      · rw [Bool.and_eq_true, Bool.or_eq_true, hi.hasEvents_iff, hj.hasEvents_iff]
        omega

theorem uploadRealtimeTasks_ends (h200 : C.uploader.Answers200) (hsize : 1 ≤ size)
    (hlim : LimitsAtLeast C m size)
    (h : ∀ e ∈ m.realtimeMemoryBatch.items, e.record.length ≤ size) (w : ω) :
    ∃ fuel r, uploadRealtimeTasks C fuel m w = .ok r := by
  induction hn : m.realtimeMemoryBatch.items.length using Nat.strong_induction_on
    generalizing m w with
  | _ n ih =>
    have hsame : (updateConfigIfNeeded C m w).1.realtimeMemoryBatch = m.realtimeMemoryBatch := by
      unfold updateConfigIfNeeded
      split <;> rfl
    cases hes : m.realtimeMemoryBatch.items with
    | nil =>
      refine ⟨1, (m, w), ?_⟩
      rw [EventManager.uploadRealtimeTasks, if_neg (by simp [MemoryEventBatch.hasEvents, hes])]
      rfl
    | cons e es =>
      have hlim' := hlim.update w
      obtain ⟨k, hk, w', hsend, hpos⟩ := MemoryEventBatch.sendEvents_spec h200 hes hlim'.maxEvents
        (hsize.trans hlim'.maxSize) (updateConfigIfNeeded C m w).2
      have hkpos := hpos.mpr ((h e (hes ▸ List.mem_cons_self)).trans hlim'.maxSize)
      have hlim₁ : LimitsAtLeast C { (updateConfigIfNeeded C m w).1 with realtimeMemoryBatch :=
          { m.realtimeMemoryBatch with items := m.realtimeMemoryBatch.items.drop k } } size :=
        ⟨hlim'.maxEvents, hlim'.maxSize, hlim'.downloaded⟩
      obtain ⟨fuel, r, hloop⟩ := ih (m.realtimeMemoryBatch.items.drop k).length
        (by rw [← hn, List.length_drop]; omega) hlim₁
        (fun e he => h e (List.mem_of_mem_drop he)) w' rfl
      refine ⟨fuel + 1, r, ?_⟩
      rw [EventManager.uploadRealtimeTasks, if_pos (by simp [MemoryEventBatch.hasEvents, hes])]
      simp only [hsame, hsend, bind, Except.bind]
      exact hloop

/-- The batches can be emptied if all their events fit. -/
theorem Reachable.drains (h : m.Reachable) (hfit : m.AllFit size) : ∃ n, m.Drains size n := by
  obtain ⟨old, new, hs⟩ := h.critical.stores
  obtain ⟨old', new', hs'⟩ := h.normal.stores
  refine ⟨_, _, _, ⟨old, new, hs, hs.ne_nil_of_noEmptyFile hfit.criticalFiles, fun e he => ?_, rfl⟩,
    ⟨fun e he => ?_, _, ⟨old', new', hs', hs'.ne_nil_of_noEmptyFile hfit.normalFiles,
      fun e he => ?_, rfl⟩, rfl⟩, rfl⟩
  · exact hfit.critical _ (hs.storedLines ▸ List.mem_map_of_mem he)
  · exact hfit.memory _ (List.mem_map_of_mem he)
  · exact hfit.normal _ (hs'.storedLines ▸ List.mem_map_of_mem he)

/-- **When uploads make progress**, with a server that answers 200: the first event has to fit, for
the files also into the part of a file that is read, and for the buffer it is the first event that
it can reach. If all events fit and no older file is empty, both tasks end. -/
theorem progress_iff_fits (C : TaskContext ω) (h200 : C.uploader.Answers200) :
    (∀ (b : MemoryEventBatch) (c z : Nat) (w : ω), b.storedLines ≠ [] → 1 ≤ c → 1 ≤ z →
      (C.uploader.Progress MemoryEventBatch.batch MemoryEventBatch.storedLines c z b w ↔
        FirstFits b.storedLines z)) ∧
    (∀ b : MultiFileEventBatch, b.Reachable → ∀ (c z : Nat) (w : ω), b.storedLines ≠ [] →
      1 ≤ c → 1 ≤ z →
      (C.uploader.Progress MultiFileEventBatch.batch MultiFileEventBatch.storedLines c z b w ↔
        b.Stuck ∨ FirstFits b.storedLines (min z (1024 * 1024)))) ∧
    (∀ b : BufferedEventBatch MultiFileEventBatch, b.Reachable → ∀ (c z : Nat) (w : ω),
      b.storedLines ≠ [] → 1 ≤ c → 1 ≤ z →
      (C.uploader.Progress BufferedEventBatch.overFiles BufferedEventBatch.storedLines c z b w ↔
        b.HeadFits z)) ∧
    ∀ m : EventManager, m.Reachable → ∀ size, 1 ≤ size → LimitsAtLeast C m size →
      m.AllFit size → ∀ w : ω, (∃ fuel r, uploadTasks C fuel m w = .ok r) ∧
        ∃ fuel r, uploadRealtimeTasks C fuel m w = .ok r := by
  refine ⟨fun b c z w hne hc hz => MemoryEventBatch.progress_iff h200 hne hc hz w,
    fun b hb c z w hne hc _ => ?_, fun b hb c z w _ hc hz => ?_,
    fun m hm size hsize hlim hfit w => ⟨?_, ?_⟩⟩
  · obtain ⟨old, new, hs⟩ := hb.stores
    exact hs.progress_iff h200 hne hc z w
  · obtain ⟨old, new, hs⟩ := hb.stores
    exact BufferedEventBatch.progress_iff h200 hs hc hz w
  · obtain ⟨n, hn⟩ := hm.drains hfit
    exact (hn.update w).uploadTasksLoop h200 hsize (hlim.update w) baseBackoffTime _
  · exact uploadRealtimeTasks_ends h200 hsize hlim
      (fun e he => hfit.realtime _ (List.mem_map_of_mem he)) w

/-- A world in which each request is answered with 200 and the configuration does not change. -/
def friendlyWorld : TaskContext Unit where
  uploader :=
    { url := "https://vortex.data.microsoft.com/collect/v1", steps := []
      send := fun _ _ => (some ⟨200, [], []⟩, ())
      getUploadTimestamp := fun _ => "2020-01-01T00:00:00.000000Z"
      compress := id }
  downloadConfigs := fun w => (none, w)
  isStopping := fun _ => false
  sleep := fun _ w => w
  requestRun := fun w => w
  persistenceCritical := fun _ => false

theorem friendlyWorld_answers : friendlyWorld.uploader.Answers200 :=
  fun _ _ => ⟨⟨200, [], []⟩, (), rfl, rfl⟩

open BufferedRun (emptyObject) in
/-- The manager with the event `{}` in each of its batches. -/
def oneEach : EventManager where
  uploaderMaxEvents := 500
  uploaderMaxSize := 6400
  normalStorageBatch := ⟨.new ∅ [] [] 500 6400, ⟨[emptyObject], 50⟩⟩
  criticalStorageBatch := ((MultiFileEventBatch.new ∅ [] [] 500 6400).addEvent emptyObject).2
  realtimeMemoryBatch := ⟨[emptyObject], 50⟩

theorem oneEach_reachable : oneEach.Reachable where
  normal := ⟨∅, [], [], 500, 6400, 50, [.buffered (.addEvent BufferedRun.emptyObject)], _,
    fun _ h => absurd h (AList.notMem_empty _), rfl, rfl⟩
  critical := ⟨∅, [], [], 500, 6400, [.addEvent BufferedRun.emptyObject],
    fun _ h => absurd h (AList.notMem_empty _), rfl⟩

/-- In each of these batches the event `{}` makes progress, and the tasks end. -/
theorem progress_oneEach :
    friendlyWorld.uploader.Progress MemoryEventBatch.batch MemoryEventBatch.storedLines 500 6400
      oneEach.realtimeMemoryBatch () ∧
    friendlyWorld.uploader.Progress MultiFileEventBatch.batch MultiFileEventBatch.storedLines 500
      6400 oneEach.criticalStorageBatch () ∧
    friendlyWorld.uploader.Progress BufferedEventBatch.overFiles BufferedEventBatch.storedLines 500
      6400 oneEach.normalStorageBatch () ∧
    (∃ fuel r, uploadTasks friendlyWorld fuel oneEach () = .ok r) ∧
    ∃ fuel r, uploadRealtimeTasks friendlyWorld fuel oneEach () = .ok r := by
  obtain ⟨hmem, hfiles, hbuf, htasks⟩ := progress_iff_fits friendlyWorld friendlyWorld_answers
  have hlines : oneEach.criticalStorageBatch.storedLines = [BufferedRun.emptyObject.record] := by
    decide
  have hnormal : oneEach.normalStorageBatch.wrapped.storedLines = [] := by decide
  refine ⟨(hmem _ 500 6400 () (by decide) (by decide) (by decide)).mpr ⟨_, rfl, by decide⟩,
    (hfiles _ oneEach_reachable.critical 500 6400 () (by simp [hlines]) (by decide)
      (by decide)).mpr (.inr ?_),
    (hbuf _ oneEach_reachable.normal 500 6400 () (by decide) (by decide) (by decide)).mpr
      ⟨fun _ => ⟨_, rfl, by decide⟩, fun h => absurd hnormal h.2⟩,
    htasks _ oneEach_reachable 6400 (by decide) ⟨by decide, le_rfl, fun _ _ _ _ h => by cases h⟩
      ?_ ()⟩
  · rw [hlines, firstFits_cons]
    decide
  · refine ⟨?_, ?_, by decide, by decide, MultiFileEventBatch.noEmptyFile_of_nil rfl rfl,
      MultiFileEventBatch.noEmptyFile_of_nil rfl rfl⟩
    · rw [hlines]
      decide
    · rw [hnormal]
      exact fun _ h => absurd h List.not_mem_nil

/-- With `maxSize` 1 the event `{}` is not uploaded and not dropped either: the upload of an empty
list succeeds again and again. -/
theorem no_progress_largeEvent : ¬∀ (b : MemoryEventBatch) (c z : Nat), b.storedLines ≠ [] →
    1 ≤ c → 1 ≤ z → friendlyWorld.uploader.Progress MemoryEventBatch.batch
      MemoryEventBatch.storedLines c z b () := by
  intro h
  have hprog := h ⟨[BufferedRun.emptyObject], 50⟩ 1 1 (by decide) le_rfl le_rfl
  rw [MemoryEventBatch.progress_iff friendlyWorld_answers (by decide) le_rfl le_rfl,
    MemoryEventBatch.storedLines, List.map_singleton, firstFits_cons] at hprog
  exact absurd hprog (by decide)

end EventManager

end McpeLauncher.Telemetry
