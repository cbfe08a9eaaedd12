import McpeLauncher.Lib.Files
import McpeLauncher.Telemetry.EventBatch

/-!
# The batch in one file

`cll::FileEventBatch`: newline-terminated events in a file, read from the front and acknowledged
by the number of bytes. Every operation works on a directory whose files are accessed without
errors; the descriptor `fd` is its offset, and `none` once it is closed.

`FileEventBatch.Holds` relates the object and the file to the list of stored lines; each operation
has one lemma that says what it does to them.
-/

namespace McpeLauncher.Telemetry
open ByteLines PosixFiles

abbrev FileName := List Char

structure FileEventBatch where
  path : FileName
  fd : Option Nat
  fileSize : Nat
  eventCount : Nat
  streamAtEnd : Bool
  finalized : Bool
  maxCount : Nat
  maxSize : Nat
  deriving DecidableEq

namespace FileEventBatch

def seekToEndAndGetFileSize (d : Dir FileName) (b : FileEventBatch) : FileEventBatch :=
  match b.fd with
  | none => { b with streamAtEnd := true, fileSize := 0 }
  | some _ =>
    let tg := (d.content b.path).length
    { b with fd := some tg, streamAtEnd := true, fileSize := tg }

/-- The read loop of `countEventsInFile`, 16 KiB at a time, with the rest of the file, the
offset `o`, the end of the last line and the number of lines so far. -/
def countLoop : (fuel : Nat) → (rest : Bytes) → (o lastNewline eventCount : Nat) → Nat × Nat
  | 0, _, _, lastNewline, eventCount => (lastNewline, eventCount)
  | fuel + 1, rest, o, lastNewline, eventCount =>
    let buf := rest.take (16 * 1024)
    if buf = [] then (lastNewline, eventCount)
    else
      let (n, hits) := memchrLoop buf.length buf
      countLoop fuel (rest.drop (16 * 1024)) (o + buf.length)
        (if hits = 0 then lastNewline else o + n) (eventCount + hits)

def countEventsInFile (d : Dir FileName) (b : FileEventBatch) : Dir FileName × FileEventBatch :=
  match b.fd with
  | none => (d, { b with eventCount := 0 })
  | some _ =>
    let content := d.content b.path
    let (lastNewline, eventCount) := countLoop content.length content 0 0 0
    let b := { b with fd := some content.length, streamAtEnd := false, eventCount }
    if lastNewline ≠ b.fileSize then
      (d.insert b.path (truncate content lastNewline), { b with fileSize := lastNewline })
    else (d, b)

/-- The constructor: opens or creates the file, counts its events and cuts off what follows the
last newline. -/
def new (d : Dir FileName) (path : FileName) : Dir FileName × FileEventBatch :=
  let d := d.openCreate path
  let b : FileEventBatch :=
    { path, fd := some 0, fileSize := 0, eventCount := 0, streamAtEnd := false,
      finalized := false, maxCount := 0, maxSize := 0 }
  countEventsInFile d (seekToEndAndGetFileSize d b)

def setLimit (b : FileEventBatch) (maxCount maxSize : Nat) : FileEventBatch :=
  { b with maxCount, maxSize }

def setFinalized (b : FileEventBatch) : FileEventBatch := { b with finalized := true }

def canAddEventInt (b : FileEventBatch) (eventSize : Nat) : Bool :=
  (b.maxSize = 0 || b.fileSize + eventSize ≤ b.maxSize) &&
    (b.maxCount = 0 || b.eventCount + 1 ≤ b.maxCount)

def canAddEvent (b : FileEventBatch) (eventSize : Nat) : Bool :=
  !b.finalized && b.canAddEventInt eventSize

/-- `addEvent` of the text of an event. -/
def addEvent (d : Dir FileName) (b : FileEventBatch) (data : Bytes) :
    Bool × Dir FileName × FileEventBatch :=
  if b.fd = none ∨ b.finalized ∨ !b.canAddEventInt data.length then (false, d, b)
  else
    let b := if b.streamAtEnd then b else b.seekToEndAndGetFileSize d
    let off := b.fd.getD 0
    (true, d.insert b.path (writeAt (d.content b.path) off data),
      { b with fd := some (off + data.length), fileSize := b.fileSize + data.length,
               eventCount := b.eventCount + 1 })

/-- An upload list is read from the first MiB of the file at most. -/
def readCap : Nat := 1024 * 1024

def getEventsForUpload (d : Dir FileName) (b : FileEventBatch) (maxCount maxSize : Nat) :
    Option VectorBatchedEventList × FileEventBatch :=
  if b.fd = none ∨ b.fileSize = 0 ∨ maxCount = 0 then (none, b)
  else
    let maxSize := min (min maxSize readCap) b.fileSize
    let data := (d.content b.path).take maxSize
    let (n, events) := memchrLoop maxCount data
    (some { data := data.take n, events, moreEvents := n < b.fileSize },
      { b with fd := some data.length, streamAtEnd := false })

/-- The loop of `onEventsUploaded` that moves the rest of the file to its front: `r` is the offset
of the descriptor that reads, `w` that of the one that writes. -/
def copyLoop : (fuel : Nat) → (content : Bytes) → (r w : Nat) → Bytes × Nat
  | 0, content, _, w => (content, w)
  | fuel + 1, content, r, w =>
    let buf := (content.drop r).take (1024 * 1024)
    if buf = [] then (content, w)
    else copyLoop fuel (writeAt content w buf) (r + buf.length) (w + buf.length)

def onEventsUploaded (d : Dir FileName) (b : FileEventBatch) (events : VectorBatchedEventList) :
    Dir FileName × FileEventBatch :=
  if b.fd = none then (d, b)
  else if b.fileSize = events.data.length then
    if b.finalized then
      (d.erase b.path, { b with fileSize := 0, eventCount := 0, fd := none })
    else
      (d.insert b.path (truncate (d.content b.path) 0), { b with fileSize := 0, eventCount := 0 })
  else
    let content := d.content b.path
    let (copied, n) := copyLoop content.length content events.data.length 0
    (d.insert b.path (truncate copied n),
      { b with fd := some n, fileSize := n, eventCount := b.eventCount - events.events })

def hasEvents (b : FileEventBatch) : Bool := b.fileSize ≠ 0

/-! ## The loops -/

theorem countLoop_spec (fuel : Nat) (done rest : Bytes) (hfuel : rest.length ≤ fuel) :
    countLoop fuel rest done.length (completeLength done) (lines done).length =
      (completeLength (done ++ rest), (lines (done ++ rest)).length) := by
  induction fuel generalizing done rest with
  | zero =>
    obtain rfl : rest = [] := List.eq_nil_of_length_eq_zero (by omega)
    simp [countLoop]
  | succ fuel ih =>
    simp only [countLoop]
    split
    · next hbuf =>
      obtain rfl : rest = [] := by simpa using hbuf
      simp
    · next hbuf =>
      generalize hb : rest.take (16 * 1024) = buf at hbuf
      have hrest : rest = buf ++ rest.drop (16 * 1024) := by rw [← hb, List.take_append_drop]
      have hpos : 0 < buf.length := List.length_pos_iff.mpr hbuf
      have hall : (lines buf).take buf.length = lines buf := by
        apply List.take_of_length_le
        rw [lines_length_eq_count]
        exact List.count_le_length
      have hlast : (if (lines buf).length = 0 then completeLength done
          else done.length + (lines buf).flatten.length) = completeLength (done ++ buf) := by
        rw [completeLength_append]
        simp only [List.length_eq_zero_iff, lines_eq_nil_iff, ite_not]
        rfl
      have hcount : (lines done).length + (lines buf).length = (lines (done ++ buf)).length := by
        simp [lines_length_eq_count]
      have hdone : done.length + buf.length = (done ++ buf).length := List.length_append.symm
      rw [memchrLoop_eq, hall]
      dsimp only
      rw [hlast, hcount, hdone, ih (done ++ buf) (rest.drop (16 * 1024)), List.append_assoc, ← hrest]
      have := congrArg List.length hrest
      rw [List.length_append] at this
      omega

theorem countLoop_content (content : Bytes) :
    countLoop content.length content 0 0 0 = (completeLength content, (lines content).length) :=
  countLoop_spec content.length [] content le_rfl

/-- The copy loop may work within one file, since it reads ahead of where it writes. -/
theorem copyLoop_spec {old content : Bytes} {k w : Nat} (h : Moved old content k w) (fuel : Nat)
    (hfuel : old.length ≤ fuel + (k + w)) :
    ∃ copied, copyLoop fuel content (k + w) w = (copied, old.length - k) ∧
      Moved old copied k (old.length - k) := by
  induction fuel generalizing content w with
  | zero =>
    have hw : w = old.length - k := by
      have := h.le
      omega
    exact ⟨content, by rw [copyLoop, ← hw], hw ▸ h⟩
  | succ fuel ih =>
    rw [copyLoop]
    split
    · next hbuf =>
      have hw : w = old.length - k := by
        have hlen := congrArg List.length hbuf
        rw [List.length_take, List.length_drop, h.length, List.length_nil] at hlen
        have := h.le
        omega
      exact ⟨content, by rw [← hw], hw ▸ h⟩
    · next hbuf =>
      have hpos := List.length_pos_iff.mpr hbuf
      rw [Nat.add_assoc]
      exact ih (h.write (List.take_prefix _ _)) (by omega)

/-! ## The stored lines -/

/-- The object `b` is open on a file that consists of the lines `ls`, and its counters agree with
the file. -/
structure Holds (d : Dir FileName) (b : FileEventBatch) (ls : List Bytes) : Prop where
  mem : b.path ∈ d
  isLine : ∀ l ∈ ls, IsLine l
  content : d.content b.path = ls.flatten
  fileSize : b.fileSize = ls.flatten.length
  eventCount : b.eventCount = ls.length
  fd : ∃ off, b.fd = some off ∧ (b.streamAtEnd = true → off = ls.flatten.length)

/-- The list `l` holds the first `k` lines, and the end-of-stream mark is off if these are all:
then no line has been added since they were read. -/
structure HandedOut (b : FileEventBatch) (ls : List Bytes) (l : VectorBatchedEventList) : Prop where
  le : l.events ≤ ls.length
  data : l.data = (ls.take l.events).flatten
  stream : l.events = ls.length → b.streamAtEnd = false

variable {d : Dir FileName} {b : FileEventBatch} {ls : List Bytes} {l : VectorBatchedEventList}

theorem HandedOut.congr (h : HandedOut b ls l) (hb : b'.streamAtEnd = b.streamAtEnd) :
    HandedOut b' ls l :=
  ⟨h.le, h.data, fun hall => hb.trans (h.stream hall)⟩

theorem Holds.fd_ne_none (h : Holds d b ls) : b.fd ≠ none := by
  obtain ⟨off, hfd, _⟩ := h.fd
  simp [hfd]

theorem Holds.hasEvents_iff (h : Holds d b ls) : b.hasEvents = true ↔ ls ≠ [] := by
  rw [hasEvents, h.fileSize, decide_eq_true_iff, Ne, List.length_eq_zero_iff,
    flatten_eq_nil_iff h.isLine]

theorem Holds.setLimit (h : Holds d b ls) (c z : Nat) : Holds d (b.setLimit c z) ls :=
  ⟨h.mem, h.isLine, h.content, h.fileSize, h.eventCount, h.fd⟩

theorem Holds.setFinalized (h : Holds d b ls) : Holds d b.setFinalized ls :=
  ⟨h.mem, h.isLine, h.content, h.fileSize, h.eventCount, h.fd⟩

/-- `Holds` depends only on the file that the object is open on. -/
theorem Holds.frame (h : Holds d b ls) {d' : Dir FileName} (hmem : b.path ∈ d')
    (hcontent : d'.content b.path = d.content b.path) : Holds d' b ls :=
  ⟨hmem, h.isLine, hcontent.trans h.content, h.fileSize, h.eventCount, h.fd⟩

/-- Opening any file: what follows the last newline is cut off. -/
theorem new_holds (d : Dir FileName) (path : FileName) : ∃ d' b, new d path = (d', b) ∧
    Holds d' b (lines (d.content path)) ∧ b.path = path := by
  generalize hc : d.content path = content
  have hpre : (lines content).flatten <+: content := prefix_of_flatten_lines content
  have htrunc : truncate content (completeLength content) = (lines content).flatten := by
    rw [completeLength, truncate_of_le hpre.length_le]
    exact (List.prefix_iff_eq_take.mp hpre).symm
  simp only [new, seekToEndAndGetFileSize, countEventsInFile, Dir.content_openCreate, hc,
    countLoop_content]
  split
  · refine ⟨_, _, rfl, ⟨(AList.mem_insert _).mpr (.inl rfl), fun _ => isLine_of_mem_lines, ?_, rfl,
      rfl, _, rfl, by simp⟩, rfl⟩
    rw [Dir.content_insert, htrunc]
  · next heq =>
    have hall : (lines content).flatten = content := hpre.eq_of_length (not_not.mp heq)
    refine ⟨_, _, rfl, ⟨(AList.mem_insert _).mpr (.inl rfl), fun _ => isLine_of_mem_lines, ?_, ?_,
      rfl, _, rfl, by simp⟩, rfl⟩
    · rw [Dir.content_openCreate, hc, hall]
    · rw [hall]

/-- Opening a file of complete lines, or creating it. -/
theorem new_spec {path : FileName} (hls : ∀ l ∈ ls, IsLine l) (hcontent : d.content path = ls.flatten) :
    ∃ b, new d path = (d.openCreate path, b) ∧ Holds (d.openCreate path) b ls ∧
      b.path = path ∧ b.finalized = false := by
  have hlines : lines ls.flatten = ls := lines_flatten hls
  have hcomplete : completeLength ls.flatten = ls.flatten.length := by
    rw [completeLength, hlines]
  have heq : new d path = (d.openCreate path,
      { path, fd := some ls.flatten.length, fileSize := ls.flatten.length, eventCount := ls.length,
        streamAtEnd := false, finalized := false, maxCount := 0, maxSize := 0 }) := by
    simp only [new, seekToEndAndGetFileSize, countEventsInFile, Dir.content_openCreate, hcontent,
      countLoop_content, hcomplete, hlines, ne_eq, not_true_eq_false, if_false]
  refine ⟨_, heq, ⟨?_, hls, ?_, rfl, rfl, _, rfl, by simp⟩, rfl, rfl⟩
  · exact (AList.mem_insert _).mpr (.inl rfl)
  · rw [Dir.content_openCreate, hcontent]

theorem addEvent_path (d : Dir FileName) (b : FileEventBatch) (data : Bytes) :
    (addEvent d b data).2.2.path = b.path := by
  have hseek : (b.seekToEndAndGetFileSize d).path = b.path := by
    unfold seekToEndAndGetFileSize
    split <;> rfl
  unfold addEvent
  split
  · rfl
  · simp only
    split
    · rfl
    · exact hseek

theorem addEvent_refused (h : b.canAddEvent data.length = false) :
    addEvent d b data = (false, d, b) := by
  have : b.finalized = true ∨ b.canAddEventInt data.length = false := by
    rwa [canAddEvent, Bool.and_eq_false_iff, Bool.not_eq_false'] at h
  rw [addEvent, if_pos]
  rcases this with h | h <;> simp [h]

/-- Adding a line appends it. -/
theorem Holds.addEvent (h : Holds d b ls) (hline : IsLine data)
    (hcan : b.canAddEvent data.length = true) :
    ∃ b', FileEventBatch.addEvent d b data = (true, d.insert b.path (ls ++ [data]).flatten, b') ∧
      Holds (d.insert b.path (ls ++ [data]).flatten) b' (ls ++ [data]) ∧
      b'.path = b.path ∧ b'.finalized = b.finalized ∧ b'.maxCount = b.maxCount ∧
      b'.maxSize = b.maxSize ∧ ∀ l, HandedOut b ls l → HandedOut b' (ls ++ [data]) l := by
  obtain ⟨off, hfd, hoff⟩ := h.fd
  have hcan' : b.finalized = false ∧ b.canAddEventInt data.length = true := by
    simpa [canAddEvent] using hcan
  have hwrite : writeAt ls.flatten ls.flatten.length data = (ls ++ [data]).flatten := by
    rw [writeAt_end]; simp
  have hsize : ls.flatten.length + data.length = (ls ++ [data]).flatten.length := by simp
  -- whether or not the descriptor was at the end before, it writes there
  have hseek : (if b.streamAtEnd = true then b else b.seekToEndAndGetFileSize d) =
      { b with fd := some ls.flatten.length, fileSize := ls.flatten.length, streamAtEnd := true } := by
    split
    · next hs =>
      have hfd' : b.fd = some ls.flatten.length := by rw [hfd, hoff hs]
      rw [← hfd', ← h.fileSize, ← hs]
    · simp only [seekToEndAndGetFileSize, hfd, h.content]
  refine ⟨{ b with fd := some (ls ++ [data]).flatten.length, streamAtEnd := true
                   fileSize := (ls ++ [data]).flatten.length, eventCount := ls.length + 1 },
    ?_, ⟨?_, ?_, ?_, rfl, by simp, _, rfl, fun _ => rfl⟩, rfl, rfl, rfl, rfl, fun l hl => ?_⟩
  · rw [FileEventBatch.addEvent, if_neg (by simp [hfd, hcan'])]
    simp only [hseek, Option.getD_some, h.content, hwrite, hsize, h.eventCount]
  · exact (AList.mem_insert _).mpr (.inl rfl)
  · intro l hl
    rcases List.mem_append.mp hl with hl | hl
    · exact h.isLine l hl
    · rw [List.mem_singleton.mp hl]; exact hline
  · exact Dir.content_insert ..
  · have := hl.le
    refine ⟨by simp; omega, ?_, fun he => ?_⟩
    · rw [hl.data, List.take_append_of_le_length hl.le]
    · simp only [List.length_append, List.length_singleton] at he
      omega

/-- `getEventsForUpload` gives no list exactly if there is no event or none is asked for. -/
theorem Holds.getEventsForUpload_none (h : Holds d b ls) (hnone : ls = [] ∨ c = 0) (z : Nat) :
    FileEventBatch.getEventsForUpload d b c z = (none, b) := by
  rw [FileEventBatch.getEventsForUpload, if_pos]
  rcases hnone with rfl | rfl
  · exact .inr (.inl (by simp [h.fileSize]))
  · exact .inr (.inr rfl)

/-- Otherwise the list holds the first of the lines that are complete in what is read. -/
theorem Holds.getEventsForUpload_eq (h : Holds d b ls) (hls : ls ≠ []) (hc : 1 ≤ c) (z : Nat) :
    ∃ k ≤ ls.length, lines (ls.flatten.take (min (min z readCap) b.fileSize)) = ls.take k ∧
      ∃ off, FileEventBatch.getEventsForUpload d b c z =
        (some { data := (ls.take (min c k)).flatten, events := min c k
                moreEvents := (ls.take (min c k)).flatten.length < b.fileSize },
          { b with fd := some off, streamAtEnd := false }) := by
  have hsize : b.fileSize ≠ 0 := by
    rw [h.fileSize, Ne, List.length_eq_zero_iff, flatten_eq_nil_iff h.isLine]
    exact hls
  obtain ⟨k, hk, hlines⟩ := lines_take_flatten h.isLine (min (min z readCap) b.fileSize)
  have htake : (ls.take k).take c = ls.take (min c k) := List.take_take
  have hle : min c k ≤ ls.length := Nat.le_trans (Nat.min_le_right _ _) hk
  have hdata : (ls.flatten.take (min (min z readCap) b.fileSize)).take
      (ls.take (min c k)).flatten.length = (ls.take (min c k)).flatten := by
    have hpre := prefix_of_flatten_lines (ls.flatten.take (min (min z readCap) b.fileSize))
    rw [hlines] at hpre
    have hpre' : (ls.take (min c k)).flatten <+: (ls.take k).flatten := by
      rw [← htake]
      nth_rewrite 2 [← List.take_append_drop c (ls.take k)]
      rw [List.flatten_append]
      exact List.prefix_append _ _
    exact (List.prefix_iff_eq_take.mp (hpre'.trans hpre)).symm
  have hlen : (ls.take (min c k)).length = min c k := List.length_take_of_le hle
  refine ⟨k, hk, hlines, (ls.flatten.take (min (min z readCap) b.fileSize)).length, ?_⟩
  rw [FileEventBatch.getEventsForUpload, if_neg (by simp [h.fd_ne_none, hsize]; omega)]
  simp only [h.content, memchrLoop_eq, hlines, htake, hdata, hlen]

/-- It is empty exactly if the first line does not fit. -/
theorem Holds.getEventsForUpload_some (h : Holds d b ls) (hls : ls ≠ []) (hc : 1 ≤ c) (z : Nat) :
    ∃ l off, FileEventBatch.getEventsForUpload d b c z =
        (some l, { b with fd := some off, streamAtEnd := false }) ∧
      Holds d { b with fd := some off, streamAtEnd := false } ls ∧
      HandedOut { b with fd := some off, streamAtEnd := false } ls l ∧
      l.events ≤ c ∧ (l.moreEvents = false → l.events = ls.length) ∧
      ∀ first rest, ls = first :: rest → (0 < l.events ↔ first.length ≤ min z readCap) := by
  obtain ⟨k, hk, hlines, off, heq⟩ := h.getEventsForUpload_eq hls hc z
  have hle : min c k ≤ ls.length := Nat.le_trans (Nat.min_le_right _ _) hk
  refine ⟨_, off, heq, ?_, ?_, Nat.min_le_left _ _, ?_, ?_⟩
  · exact ⟨h.mem, h.isLine, h.content, h.fileSize, h.eventCount, _, rfl, by simp⟩
  · exact ⟨hle, rfl, fun _ => rfl⟩
  · intro hmore
    simp only [decide_eq_false_iff_not, h.fileSize] at hmore
    apply (flatten_take_length_eq_iff h.isLine hle).mp
    have := congrArg List.length (take_flatten_take ls (min c k))
    rw [List.length_take] at this
    omega
  · rintro first rest rfl
    have hfit := flatten_take_length_le_iff h.isLine hlines hk (Nat.le_add_left 1 rest.length)
    have hfirst : first.length ≤ b.fileSize := by rw [h.fileSize]; simp
    simp only [List.take_succ_cons, List.take_zero, List.flatten_cons, List.flatten_nil,
      List.append_nil] at hfit
    simp only
    omega

/-- Acknowledging a list removes its lines from the file; a finalized file that becomes empty is
removed and its object closed. -/
theorem Holds.onEventsUploaded (h : Holds d b ls) (hl : HandedOut b ls l) :
    ∃ d' b', FileEventBatch.onEventsUploaded d b l = (d', b') ∧ b'.path = b.path ∧
      b'.finalized = b.finalized ∧ b'.maxCount = b.maxCount ∧ b'.maxSize = b.maxSize ∧
      ((b.finalized = true ∧ l.events = ls.length ∧ d' = d.erase b.path ∧ b'.fileSize = 0) ∨
        (¬(b.finalized = true ∧ l.events = ls.length) ∧
          d' = d.insert b.path (ls.drop l.events).flatten ∧ Holds d' b' (ls.drop l.events))) := by
  have hall : b.fileSize = l.data.length ↔ l.events = ls.length := by
    rw [h.fileSize, hl.data]
    exact flatten_take_length_eq_iff h.isLine hl.le
  rw [FileEventBatch.onEventsUploaded, if_neg h.fd_ne_none]
  split
  · next heq =>
    have hev := hall.mp heq
    split
    · next hfin => exact ⟨_, _, rfl, rfl, rfl, rfl, rfl, .inl ⟨hfin, hev, rfl, rfl⟩⟩
    · next hfin =>
      refine ⟨_, _, rfl, rfl, rfl, rfl, rfl, .inr ⟨fun hh => hfin hh.1, ?_, ?_⟩⟩
      · simp [truncate, hev]
      · rw [hev, List.drop_length]
        obtain ⟨off, hfd, _⟩ := h.fd
        refine ⟨(AList.mem_insert _).mpr (.inl rfl), by simp, ?_, rfl, rfl, off, hfd, fun hs => ?_⟩
        · simp [truncate]
        · exact absurd hs (by simp [hl.stream hev])
  · next hne =>
    have hev : l.events ≠ ls.length := fun he => hne (hall.mpr he)
    have hlen : l.data.length ≤ ls.flatten.length := by
      rw [hl.data, ← take_flatten_take, List.length_take]
      exact Nat.min_le_right _ _
    have hdrop : ls.flatten.drop l.data.length = (ls.drop l.events).flatten := by
      rw [hl.data, drop_flatten_take]
    have hn : ls.flatten.length - l.data.length = (ls.drop l.events).flatten.length := by
      rw [← hdrop, List.length_drop]
    obtain ⟨copied, hcopy, hmoved⟩ :=
      copyLoop_spec (Moved.start hlen) ls.flatten.length (Nat.le_add_right _ _)
    have htrunc : truncate copied (ls.flatten.length - l.data.length) =
        (ls.drop l.events).flatten := hmoved.truncate.trans hdrop
    simp only [Nat.add_zero] at hcopy
    simp only [h.content, hcopy, htrunc]
    refine ⟨_, _, rfl, rfl, rfl, rfl, rfl, .inr ⟨fun hh => hev hh.2, rfl, ?_⟩⟩
    refine ⟨(AList.mem_insert _).mpr (.inl rfl), fun x hx => h.isLine x (List.mem_of_mem_drop hx),
      Dir.content_insert .., hn, ?_, _, rfl, fun _ => hn⟩
    simp [h.eventCount]

end FileEventBatch

end McpeLauncher.Telemetry
