import McpeLauncher.Lib.Runs
import McpeLauncher.Telemetry.MultiFileQueue

/-!
# Runs of the batch in several files

Runs of a `MultiFileEventBatch` with additions, changes of the limits, one uploader and restarts
of the process. Nothing is lost or reordered in any run. An event that is larger than the limit of
a file must not arrive while the newest file is empty, though: that leaves an empty file in front
of the queue, from which nothing can be uploaded.
-/

namespace McpeLauncher.Telemetry
open ByteLines PosixFiles

/-- The calls of a run. The lock makes each of them atomic; `uploaded` and `failed` end the upload
of the list handed out last, and a restart gives up on it. -/
inductive MultiFileCall
  | addEvent (rawData : Event)
  | setFileLimits (maxEvents maxSize : Nat)
  | getEventsForUpload (maxCount maxSize : Nat)
  | uploaded
  | failed
  | restart (fileMaxEvents fileMaxSize : Nat)

/-- The batch, the list being uploaded with the file it was read from, the events accepted so far
and the data of the lists acknowledged so far. -/
structure MultiFileRun where
  batch : MultiFileEventBatch
  inFlight : Option (MultiFileEventList × FileName)
  accepted : List Event
  acked : Bytes

namespace MultiFileRun

def step (s : MultiFileRun) : MultiFileCall → MultiFileRun
  | .addEvent e =>
    let added := s.batch.addEvent e
    { s with batch := added.2, accepted := s.accepted ++ if added.1 then [e] else [] }
  | .setFileLimits maxEvents maxSize =>
    { s with batch := s.batch.setFileLimits maxEvents maxSize }
  | .getEventsForUpload maxCount maxSize =>
    let got := s.batch.getEventsForUpload maxCount maxSize
    { s with batch := got.2, inFlight := got.1.map (·, got.2.uploadFile) }
  | .uploaded =>
    match s.inFlight with
    | none => s
    | some (l, _) =>
      { s with batch := s.batch.onEventsUploaded l, inFlight := none
               acked := s.acked ++ l.wrapped.data }
  | .failed => { s with inFlight := none }
  | .restart maxEvents maxSize =>
    { s with batch := .new s.batch.dir s.batch.filePrefix s.batch.fileSuffix maxEvents maxSize
             inFlight := none }

/-- The state after the constructor has scanned the directory. -/
def init (dir : Dir FileName) (filePrefix fileSuffix : FileName) (fileMaxEvents fileMaxSize : Nat) :
    MultiFileRun where
  batch := .new dir filePrefix fileSuffix fileMaxEvents fileMaxSize
  inFlight := none
  accepted := []
  acked := []

/-! ## The invariant of a run -/

structure Inv (s : MultiFileRun) (old : List (Int × List Event)) (new : List Event) : Prop where
  stores : s.batch.Stores old new
  balanced : ∃ done, s.acked = records done ∧
    done ++ MultiFileEventBatch.eventsOf old new = s.accepted
  inFlight : ∀ l file, s.inFlight = some (l, file) →
    s.batch.HandsOut old new l ∧ s.batch.uploadFile = file

end MultiFileRun

namespace MultiFileEventBatch
variable {b : MultiFileEventBatch} {old : List (Int × List Event)} {new : List Event}

/-- The upload file of a list in flight stays the same when events are added, also if the newest
file becomes the oldest. -/
theorem Stores.uploadFile_addEvent (h : b.Stores old new) (hl : b.HandsOut old new l) (e : Event) :
    (b.addEvent e).2.uploadFile = b.uploadFile := by
  have hold := h.oldest
  unfold OldestOk at hold
  unfold HandsOut at hl
  cases ho : b.oldestBatch with
  | none =>
    rw [ho] at hl hold
    obtain ⟨rfl, _⟩ := hl
    have hnil : b.oldBatches = [] := by simpa using hold.symm
    unfold MultiFileEventBatch.addEvent
    simp only
    split
    · simp [uploadFile, ho, FileEventBatch.addEvent_path]
    · simp [uploadFile, MultiFileEventBatch.rotate, openNewest, ho, hnil,
        FileEventBatch.setFinalized]
  | some o =>
    unfold MultiFileEventBatch.addEvent
    simp only
    split
    · simp [uploadFile, ho]
    · simp [uploadFile, MultiFileEventBatch.rotate, openNewest, ho]

theorem uploadFile_setFileLimits (b : MultiFileEventBatch) (c z : Nat) :
    (b.setFileLimits c z).uploadFile = b.uploadFile := by
  unfold uploadFile MultiFileEventBatch.setFileLimits
  cases b.oldestBatch <;> rfl

end MultiFileEventBatch

namespace MultiFileRun
open MultiFileEventBatch
variable {s : MultiFileRun} {old : List (Int × List Event)} {new : List Event}

theorem inv_init {dir : Dir FileName} {pre suf : FileName}
    (h : ∀ name ∈ dir, batchId pre suf name = none) (maxEvents maxSize : Nat) :
    Inv (init dir pre suf maxEvents maxSize) [] [] :=
  ⟨new_stores_empty h maxEvents maxSize, ⟨[], rfl, rfl⟩, fun _ _ hl => by cases hl⟩

/-- Each call keeps the invariant. An older file without events comes only from a newest file that
was rotated while it was empty. -/
theorem Inv.step (h : Inv s old new) (c : MultiFileCall) :
    ∃ old' new', Inv (s.step c) old' new' ∧
      ((∀ f ∈ old, f.2 ≠ []) →
        (∀ e, c = .addEvent e → new = [] → s.batch.newestBatch.canAddEvent e.record.length = true) →
        ∀ f ∈ old', f.2 ≠ []) := by
  obtain ⟨done, hacked, heq⟩ := h.balanced
  cases c with
  | addEvent e =>
    obtain ⟨old', new', hs, hevents, hkeep, hrot⟩ := h.stores.addEvent e
    refine ⟨old', new', ⟨hs, ⟨done, hacked, ?_⟩, fun l file hl => ?_⟩, fun hne hadd => ?_⟩
    · rw [hevents, ← List.append_assoc, heq]
      rfl
    · obtain ⟨hout, hfile⟩ := h.inFlight l file hl
      exact ⟨hkeep l hout, (h.stores.uploadFile_addEvent hout e).trans hfile⟩
    · rcases hrot with rfl | ⟨rfl, hfull⟩
      · exact hne
      · intro f hf
        rcases List.mem_append.mp hf with hf | hf
        · exact hne f hf
        · rw [List.mem_singleton.mp hf]
          intro hnil
          rw [hadd e rfl hnil] at hfull
          cases hfull
  | setFileLimits c z =>
    refine ⟨old, new, ⟨h.stores.setFileLimits c z, ⟨done, hacked, heq⟩, fun l file hl => ?_⟩,
      fun hne _ => hne⟩
    obtain ⟨hout, hfile⟩ := h.inFlight l file hl
    exact ⟨Stores.handsOut_setFileLimits hout c z, (uploadFile_setFileLimits _ c z).trans hfile⟩
  | getEventsForUpload c z =>
    obtain ⟨old', r, b', hget, hs, hevents, hsub, hout, _⟩ := h.stores.getEventsForUpload c z
    refine ⟨old', new, ⟨?_, ⟨done, hacked, ?_⟩, fun l file hl => ?_⟩,
      fun hne _ f hf => hne f (hsub f hf)⟩
    · simpa [MultiFileRun.step, hget] using hs
    · rw [hevents]; exact heq
    · simp only [MultiFileRun.step, hget, Option.map_eq_some_iff, Prod.mk.injEq] at hl ⊢
      obtain ⟨l', hl', rfl, rfl⟩ := hl
      exact ⟨(hout l' hl').1, rfl⟩
  | uploaded =>
    cases hl : s.inFlight with
    | none =>
      have hstep : s.step .uploaded = s := by simp [MultiFileRun.step, hl]
      rw [hstep]
      exact ⟨old, new, h, fun hne _ => hne⟩
    | some p =>
      obtain ⟨hout, _⟩ := h.inFlight p.1 p.2 hl
      obtain ⟨hle, hdata⟩ := Stores.contents hout
      obtain ⟨old', new', hs, hevents, hne⟩ := h.stores.onEventsUploaded hout
      have hstep : s.step .uploaded = { s with batch := s.batch.onEventsUploaded p.1
                                               inFlight := none
                                               acked := s.acked ++ p.1.wrapped.data } := by
        simp [MultiFileRun.step, hl]
      rw [hstep]
      refine ⟨old', new', ⟨hs, ⟨done ++ (eventsOf old new).take p.1.wrapped.events, ?_, ?_⟩, by simp⟩,
        fun h _ => hne h⟩
      · rw [records_append, ← hacked, hdata]
      · rw [hevents, List.append_assoc, List.take_append_drop]
        exact heq
  | failed =>
    exact ⟨old, new, ⟨h.stores, ⟨done, hacked, heq⟩, fun _ _ hl => by cases hl⟩, fun hne _ => hne⟩
  | restart c z =>
    exact ⟨old, new, ⟨new_stores h.stores.dir c z, ⟨done, hacked, heq⟩, fun _ _ hl => by cases hl⟩,
      fun hne _ => hne⟩

theorem Inv.foldl (h : Inv s old new) (calls : List MultiFileCall) :
    ∃ old' new', Inv (calls.foldl MultiFileRun.step s) old' new' := by
  induction calls generalizing s old new with
  | nil => exact ⟨old, new, h⟩
  | cons c calls ih =>
    obtain ⟨old', new', h', _⟩ := h.step c
    exact ih h'

/-- **The batch is a lossless queue**: after any run that starts in a directory without batch files,
the events of the acknowledged lists and then those in the batch files are the accepted events, and
an acknowledgement would go to the file that the list in flight was read from. -/
theorem lossless (dir : Dir FileName) (pre suf : FileName) (fileMaxEvents fileMaxSize : Nat)
    (hdir : ∀ name ∈ dir, batchId pre suf name = none) (calls : List MultiFileCall) :
    let s := calls.foldl step (init dir pre suf fileMaxEvents fileMaxSize)
    lines s.acked ++ s.batch.storedLines = s.accepted.map Event.record ∧
      ∀ l file, s.inFlight = some (l, file) → s.batch.uploadFile = file := by
  obtain ⟨old, new, h⟩ := (inv_init hdir fileMaxEvents fileMaxSize).foldl calls
  obtain ⟨done, hacked, heq⟩ := h.balanced
  refine ⟨?_, fun l file hl => (h.inFlight l file hl).2⟩
  rw [hacked, lines_records, h.stores.storedLines, ← List.map_append, heq]

/-- A run in an empty directory, which has no batch files: the newest file is full when the second
event is added between reading and acknowledging the first one. -/
theorem lossless_emptyDir :
    let e : Event := ⟨[123, 125], by decide⟩
    let s := [.addEvent e, .getEventsForUpload 1 100, .addEvent e, .uploaded].foldl step
      (init ∅ [] [] 1 0)
    lines s.acked ++ s.batch.storedLines = s.accepted.map Event.record ∧
      ∀ l file, s.inFlight = some (l, file) → s.batch.uploadFile = file :=
  lossless ∅ [] [] 1 0 (fun _ h => absurd h (AList.notMem_empty _)) _

/-! ## Reaching the first event -/

/-- The batch has events exactly if it stores one, and an upload of one event reaches the first
stored event if that is no larger than what is read of a file. -/
def Served (b : MultiFileEventBatch) : Prop :=
  (b.hasEvents = true ↔ b.storedLines ≠ []) ∧
    (b.hasEvents = true → ∀ first rest, b.storedLines = first :: rest →
      first.length ≤ 1024 * 1024 →
      ∃ l b', b.getEventsForUpload 1 SIZE_MAX = (some l, b') ∧ l.wrapped.events = 1)

/-- An event for the empty newest file fits into it. -/
def CallOk (s : MultiFileRun) : MultiFileCall → Prop
  | .addEvent e => s.batch.newestBatch.fileSize = 0 →
      s.batch.fileMaxSize = 0 ∨ e.record.length ≤ s.batch.fileMaxSize
  | _ => True

theorem canAddEvent_of_callOk (h : Inv s old []) (hok : s.CallOk (.addEvent e)) :
    s.batch.newestBatch.canAddEvent e.record.length = true := by
  have hsize : s.batch.newestBatch.fileSize = 0 := h.stores.newest.fileSize
  have hcount : s.batch.newestBatch.eventCount = 0 := h.stores.newest.eventCount
  have hfit := hok hsize
  rw [FileEventBatch.canAddEvent, FileEventBatch.canAddEventInt, h.stores.newestOpen, hsize, hcount,
    h.stores.maxSize]
  simp only [Bool.not_false, Bool.true_and, Nat.zero_add, Bool.and_eq_true, Bool.or_eq_true,
    decide_eq_true_eq]
  omega

/-- In a state without empty older files the first event can be reached. -/
theorem served_of_ne_nil (h : Inv s old new) (hne : ∀ f ∈ old, f.2 ≠ []) : Served s.batch := by
  refine ⟨?_, fun _ first rest hlines hle => ?_⟩
  · rw [h.stores.hasEvents_iff hne, h.stores.storedLines, Ne, Ne, List.map_eq_nil_iff]
  · rw [h.stores.storedLines, List.map_eq_cons_iff] at hlines
    obtain ⟨e, es, hes, rfl, rfl⟩ := hlines
    obtain ⟨old', r, b', hget, _, _, _, _, _, hread⟩ := h.stores.getEventsForUpload 1 SIZE_MAX
    obtain ⟨l, rfl, hle1, hpos⟩ := (hread (h.stores.not_stuck hne)).2 le_rfl e es hes
    refine ⟨l, b', hget, ?_⟩
    have hcap : min SIZE_MAX FileEventBatch.readCap = 1024 * 1024 := by decide
    rw [hcap] at hpos
    have := hpos.mpr hle
    omega

/-- In every run in which no event larger than the limit of a file arrives while the newest file
is empty, the first stored event can be reached in every state. -/
theorem served_of_callOk (dir : Dir FileName) (pre suf : FileName) (fileMaxEvents fileMaxSize : Nat)
    (hdir : ∀ name ∈ dir, batchId pre suf name = none) (calls : List MultiFileCall)
    (h : Runs.Meets (fun s c => some (step s c)) CallOk
      (init dir pre suf fileMaxEvents fileMaxSize) calls) :
    Served (calls.foldl step (init dir pre suf fileMaxEvents fileMaxSize)).batch := by
  have hstep : ∀ s c, (∃ old new, Inv s old new ∧ ∀ f ∈ old, f.2 ≠ []) → s.CallOk c →
      ∃ s', some (step s c) = some s' ∧ ∃ old new, Inv s' old new ∧ ∀ f ∈ old, f.2 ≠ [] := by
    rintro s c ⟨old, new, hinv, hne⟩ hok
    obtain ⟨old', new', hinv', hne'⟩ := hinv.step c
    refine ⟨_, rfl, old', new', hinv', hne' hne ?_⟩
    rintro e rfl rfl
    exact canAddEvent_of_callOk hinv hok
  obtain ⟨s, hrun, old, new, hinv, hne⟩ :=
    Runs.run_inv hstep ⟨[], [], inv_init hdir fileMaxEvents fileMaxSize, by simp⟩ h
  rw [Runs.run_some, Option.some.injEq] at hrun
  rw [hrun]
  exact served_of_ne_nil hinv hne

/-- In an empty directory with files of at most 8 bytes, an event of 4 bytes may be added. -/
theorem served_smallEvent :
    Served ([MultiFileCall.addEvent ⟨[123, 125], by decide⟩].foldl step (init ∅ [] [] 0 8)).batch :=
  served_of_callOk ∅ [] [] 0 8 (fun _ h => absurd h (AList.notMem_empty _)) _
    ⟨fun _ => .inr (by decide), fun _ _ => trivial⟩

/-- An event that is larger than a file may be leaves an empty file behind, with which the batch
counts as having events. -/
theorem not_served_largeEvent : ¬∀ calls : List MultiFileCall,
    Served (calls.foldl step (init ∅ [] [] 0 3)).batch := by
  intro h
  have := (h [.addEvent ⟨[123, 125], by decide⟩]).1
  revert this
  decide

end MultiFileRun

end McpeLauncher.Telemetry
