import McpeLauncher.Telemetry.FileEventBatch

/-!
# Runs of the batch in one file

Runs of a `FileEventBatch` that is opened on a file of any content. In every state the file is the
concatenation of the stored events, the counters agree with it, and the descriptor is at its end
whenever `streamAtEnd` says so; an addition appends.
-/

namespace McpeLauncher.Telemetry
open ByteLines PosixFiles

/-- The calls on a batch. A text that is added ends in a newline and contains no other, and a list
is acknowledged at most once. -/
inductive FileCall
  | setLimit (maxCount maxSize : Nat)
  | setFinalized
  | addEvent (data : {l : Bytes // IsLine l})
  | getEventsForUpload (maxCount maxSize : Nat)
  | onEventsUploaded

/-- The file and the batch, the list returned last, and the events that are stored: those of the
initial content and the accepted ones, without those of the acknowledged lists. -/
structure FileRun where
  dir : Dir FileName
  batch : FileEventBatch
  last : Option VectorBatchedEventList
  stored : List Bytes

namespace FileRun

def init (dir : Dir FileName) (path : FileName) : FileRun where
  dir := (FileEventBatch.new dir path).1
  batch := (FileEventBatch.new dir path).2
  last := none
  stored := lines (dir.content path)

def step (s : FileRun) : FileCall → FileRun
  | .setLimit maxCount maxSize => { s with batch := s.batch.setLimit maxCount maxSize }
  | .setFinalized => { s with batch := s.batch.setFinalized }
  | .addEvent data =>
    let (added, dir, batch) := FileEventBatch.addEvent s.dir s.batch data.1
    { s with dir, batch, stored := s.stored ++ if added then [data.1] else [] }
  | .getEventsForUpload maxCount maxSize =>
    let (list, batch) := FileEventBatch.getEventsForUpload s.dir s.batch maxCount maxSize
    { s with batch, last := list.or s.last }
  | .onEventsUploaded =>
    match s.last with
    | none => s
    | some l =>
      let (dir, batch) := FileEventBatch.onEventsUploaded s.dir s.batch l
      { dir, batch, last := none, stored := s.stored.drop (lines l.data).length }

/-- What the object says about the file: the counters agree with the content, which is the
concatenation of the stored events, and a descriptor that is marked to be at the end is there. -/
structure Represents (s : FileRun) : Prop where
  isLine : ∀ e ∈ s.stored, IsLine e
  content : s.dir.content s.batch.path = s.stored.flatten
  fileSize : s.batch.fileSize = (s.dir.content s.batch.path).length
  eventCount : s.batch.eventCount = (s.dir.content s.batch.path).count newline
  streamAtEnd : s.batch.streamAtEnd = true → s.batch.fd = some s.batch.fileSize

/-! ## The invariant of a run -/

/-- A finalized batch whose file has been removed. -/
structure Closed (s : FileRun) : Prop where
  content : s.dir.content s.batch.path = []
  fd : s.batch.fd = none
  fileSize : s.batch.fileSize = 0
  eventCount : s.batch.eventCount = 0
  streamAtEnd : s.batch.streamAtEnd = false
  last : s.last = none
  stored : s.stored = []

/-- The batch is open on the stored events, and the list returned last holds the first of them. -/
structure Open (s : FileRun) : Prop where
  holds : FileEventBatch.Holds s.dir s.batch s.stored
  last : ∀ l, s.last = some l → FileEventBatch.HandedOut s.batch s.stored l

def Inv (s : FileRun) : Prop := s.Open ∨ s.Closed

variable {s : FileRun}

theorem Closed.represents (h : s.Closed) : s.Represents where
  isLine e he := absurd (h.stored ▸ he) List.not_mem_nil
  content := by rw [h.content, h.stored]; rfl
  fileSize := by rw [h.fileSize, h.content]; rfl
  eventCount := by rw [h.eventCount, h.content]; rfl
  streamAtEnd hs := absurd hs (by simp [h.streamAtEnd])

theorem Open.represents (h : s.Open) : s.Represents where
  isLine := h.holds.isLine
  content := h.holds.content
  fileSize := by rw [h.holds.fileSize, h.holds.content]
  eventCount := by
    rw [h.holds.eventCount, h.holds.content, ← lines_length_eq_count, lines_flatten h.holds.isLine]
  streamAtEnd hs := by
    obtain ⟨off, hfd, hoff⟩ := h.holds.fd
    rw [hfd, hoff hs, h.holds.fileSize]

theorem Inv.represents (h : s.Inv) : s.Represents := h.elim Open.represents Closed.represents

theorem inv_init (dir : Dir FileName) (path : FileName) : (init dir path).Inv := by
  obtain ⟨d', b, hnew, hholds, _⟩ := FileEventBatch.new_holds dir path
  refine .inl ⟨?_, fun l hl => by cases hl⟩
  simpa [init, hnew] using hholds

theorem Closed.step (h : s.Closed) (c : FileCall) : (s.step c).Closed := by
  cases c with
  | setLimit maxCount maxSize =>
    exact ⟨h.content, h.fd, h.fileSize, h.eventCount, h.streamAtEnd, h.last, h.stored⟩
  | setFinalized =>
    exact ⟨h.content, h.fd, h.fileSize, h.eventCount, h.streamAtEnd, h.last, h.stored⟩
  | addEvent data =>
    have hadd : FileEventBatch.addEvent s.dir s.batch data.1 = (false, s.dir, s.batch) := by
      rw [FileEventBatch.addEvent, if_pos (.inl h.fd)]
    simp only [FileRun.step, hadd, Bool.false_eq_true, if_false, List.append_nil]
    exact h
  | getEventsForUpload maxCount maxSize =>
    have hget : FileEventBatch.getEventsForUpload s.dir s.batch maxCount maxSize =
        (none, s.batch) := by
      rw [FileEventBatch.getEventsForUpload, if_pos (.inl h.fd)]
    simp only [FileRun.step, hget, Option.none_or]
    exact h
  | onEventsUploaded =>
    simp only [FileRun.step, h.last]
    exact h

/-- The lines of a list handed out are counted by it. -/
theorem length_lines_data (h : FileEventBatch.Holds s.dir s.batch s.stored)
    (hl : FileEventBatch.HandedOut s.batch s.stored l) : (lines l.data).length = l.events := by
  rw [hl.data, lines_flatten fun x hx => h.isLine x (List.mem_of_mem_take hx)]
  exact List.length_take_of_le hl.le

theorem Open.addEvent (h : s.Open) (data : {l : Bytes // IsLine l}) :
    (s.step (.addEvent data)).Open := by
  cases hcan : s.batch.canAddEvent data.1.length with
  | false =>
    simp only [FileRun.step, FileEventBatch.addEvent_refused hcan, Bool.false_eq_true, if_false,
      List.append_nil]
    exact h
  | true =>
    obtain ⟨b', hadd, hholds, _, _, _, _, hkeep⟩ := h.holds.addEvent data.2 hcan
    simp only [FileRun.step, hadd, if_true]
    exact ⟨hholds, fun l hl => hkeep l (h.last l hl)⟩

theorem Open.getEventsForUpload (h : s.Open) (maxCount maxSize : Nat) :
    (s.step (.getEventsForUpload maxCount maxSize)).Open := by
  by_cases hnone : s.stored = [] ∨ maxCount = 0
  · simp only [FileRun.step, h.holds.getEventsForUpload_none hnone, Option.none_or]
    exact h
  · rw [not_or] at hnone
    obtain ⟨l, off, hget, hholds, hout, _⟩ :=
      h.holds.getEventsForUpload_some hnone.1 (Nat.pos_of_ne_zero hnone.2) maxSize
    simp only [FileRun.step, hget, Option.some_or]
    exact ⟨hholds, fun l' hl' => by cases hl'; exact hout⟩

/-- Acknowledging all events of a finalized batch closes it, anything else keeps it open. -/
theorem Open.onEventsUploaded (h : s.Open) : (s.step .onEventsUploaded).Inv := by
  cases hlast : s.last with
  | none =>
    have hstep : s.step .onEventsUploaded = s := by simp only [FileRun.step, hlast]
    rw [hstep]
    exact .inl h
  | some l =>
    have hl := h.last l hlast
    have hdrop := length_lines_data h.holds hl
    obtain ⟨d', b', hack, hpath, _, _, _, hclosed | ⟨_, hd', hholds⟩⟩ := h.holds.onEventsUploaded hl
    · obtain ⟨hfin, hall, rfl, _⟩ := hclosed
      have hsize : s.batch.fileSize = l.data.length := by
        rw [h.holds.fileSize, hl.data, hall, List.take_length]
      have hb' : b' = { s.batch with fileSize := 0, eventCount := 0, fd := none } := by
        rw [FileEventBatch.onEventsUploaded, if_neg h.holds.fd_ne_none, if_pos hsize, if_pos hfin,
          Prod.mk.injEq] at hack
        exact hack.2.symm
      subst hb'
      refine .inr ?_
      simp only [FileRun.step, hlast, hack, hdrop, hall]
      exact ⟨by simp [Dir.content], rfl, rfl, rfl, hl.stream hall, rfl, List.drop_length⟩
    · refine .inl ?_
      simp only [FileRun.step, hlast, hack, hdrop]
      exact ⟨hholds, fun l hl => by cases hl⟩

/-- Each call keeps the invariant. -/
theorem Inv.step (h : s.Inv) (c : FileCall) : (s.step c).Inv := by
  rcases h with h | h
  · cases c with
    | setLimit maxCount maxSize =>
      exact .inl ⟨h.holds.setLimit maxCount maxSize, fun l hl => (h.last l hl).congr rfl⟩
    | setFinalized =>
      exact .inl ⟨h.holds.setFinalized, fun l hl => (h.last l hl).congr rfl⟩
    | addEvent data => exact .inl (h.addEvent data)
    | getEventsForUpload maxCount maxSize => exact .inl (h.getEventsForUpload maxCount maxSize)
    | onEventsUploaded => exact h.onEventsUploaded
  · exact .inr (h.step c)

theorem Inv.foldl (h : s.Inv) (calls : List FileCall) : (calls.foldl FileRun.step s).Inv := by
  induction calls generalizing s with
  | nil => exact h
  | cons c calls ih => exact ih (h.step c)

/-- An addition goes to the end of the file or leaves it as it is. -/
theorem Inv.content_addEvent (h : s.Inv) (data : {l : Bytes // IsLine l}) :
    (s.step (.addEvent data)).dir.content s.batch.path = s.dir.content s.batch.path ++
      if (FileEventBatch.addEvent s.dir s.batch data.1).1 then data.1 else [] := by
  have hpath : (s.step (.addEvent data)).batch.path = s.batch.path :=
    FileEventBatch.addEvent_path s.dir s.batch data.1
  have hcontent := (h.step (.addEvent data)).represents.content
  rw [hpath] at hcontent
  rw [hcontent, h.represents.content]
  simp only [FileRun.step]
  split <;> simp

/-- **The batch represents its file**: whatever the file contained and whatever is called, the
content is the concatenation of the stored events, `fileSize` and `eventCount` agree with it, and
`streamAtEnd` means that the descriptor is at the end. So each addition appends, and a list that is
still to be acknowledged holds the first of the stored events. -/
theorem represents_run (dir : Dir FileName) (path : FileName) (calls : List FileCall) :
    let s := calls.foldl step (init dir path)
    s.Represents ∧
      (∀ data, (s.step (.addEvent data)).dir.content s.batch.path = s.dir.content s.batch.path ++
        if (FileEventBatch.addEvent s.dir s.batch data.1).1 then data.1 else []) ∧
      ∀ l, s.last = some l → l.events ≤ s.stored.length ∧
        l.data = (s.stored.take l.events).flatten := by
  intro s
  have hinv : s.Inv := (inv_init dir path).foldl calls
  refine ⟨hinv.represents, hinv.content_addEvent, fun l hl => ?_⟩
  rcases hinv with hopen | hclosed
  · exact ⟨(hopen.last l hl).le, (hopen.last l hl).data⟩
  · rw [hclosed.last] at hl
    cases hl

end FileRun

end McpeLauncher.Telemetry
