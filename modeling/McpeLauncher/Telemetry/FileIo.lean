import McpeLauncher.Lib.ShortIo
import McpeLauncher.Telemetry.FileEventBatch
import McpeLauncher.Telemetry.MemoryEventBatch

/-!
# The file batch with short reads and writes

The operations of `cll::FileEventBatch` that read or write the file, where each call of `read` and
`write` transfers what a schedule allows. Without errors they do what the operations with whole
transfers do. A write error in the middle of an event is undone in the file, but the descriptor
stays behind the end.
-/

namespace McpeLauncher.Telemetry
open ByteLines PosixFiles

namespace FileEventBatch.ShortIo

/-- `addEvent`, which fails at the first write error and then cuts off what it has written of the
event. -/
def addEvent (fuel : Nat) (writes : Transfers) (d : Dir FileName) (b : FileEventBatch)
    (data : Bytes) : Option (Bool × Dir FileName × FileEventBatch) :=
  if b.fd = none ∨ b.finalized ∨ !b.canAddEventInt data.length then some (false, d, b)
  else
    let b := if b.streamAtEnd then b else b.seekToEndAndGetFileSize d
    let off := b.fd.getD 0
    match writeLoop fuel writes (d.content b.path) off data with
    | none => none
    | some v =>
      let o := v.off - off
      let b := { b with fd := some v.off }
      if v.failed then
        some (false,
          d.insert b.path (if o > 0 then truncate v.content b.fileSize else v.content), b)
      else
        some (true, d.insert b.path v.content,
          { b with fileSize := b.fileSize + o, eventCount := b.eventCount + 1 })

/-- `getEventsForUpload`. Each read but the last takes some of the room, so one more than `maxSize`
are enough. -/
def getEventsForUpload (reads : Transfers) (d : Dir FileName) (b : FileEventBatch)
    (maxCount maxSize : Nat) : Option VectorBatchedEventList × FileEventBatch :=
  if b.fd = none ∨ b.fileSize = 0 ∨ maxCount = 0 then (none, b)
  else
    let maxSize := min (min maxSize readCap) b.fileSize
    let data := readLoop (maxSize + 1) reads (d.content b.path) maxSize
    let (n, events) := memchrLoop maxCount data
    (some { data := data.take n, events, moreEvents := n < b.fileSize },
      { b with fd := some data.length, streamAtEnd := false })

/-- The nested loops of `onEventsUploaded`: `r` is the offset of `fdIn` and `w` that of `fd`. A
write error ends the inner loop only. -/
def moveLoop : (fuel : Nat) → (reads writes : Transfers) → (content : Bytes) → (r w : Nat) →
    Option (Bytes × Nat)
  | 0, _, _, _, _, _ => none
  | fuel + 1, reads, writes, content, r, w =>
    match read (reads 0) (content.drop r) (1024 * 1024) with
    | none => some (content, w)
    | some buf =>
      if buf = [] then some (content, w)
      else
        match writeLoop fuel writes content w buf with
        | none => none
        | some v => moveLoop fuel reads.tail v.rest v.content (r + buf.length) v.off

def onEventsUploaded (fuel : Nat) (reads writes : Transfers) (d : Dir FileName)
    (b : FileEventBatch) (events : VectorBatchedEventList) :
    Option (Dir FileName × FileEventBatch) :=
  if b.fd = none then some (d, b)
  else if b.fileSize = events.data.length then
    if b.finalized then
      some (d.erase b.path, { b with fileSize := 0, eventCount := 0, fd := none })
    else
      some (d.insert b.path (truncate (d.content b.path) 0),
        { b with fileSize := 0, eventCount := 0 })
  else
    match moveLoop fuel reads writes (d.content b.path) events.data.length 0 with
    | none => none
    | some (copied, n) =>
      some (d.insert b.path (truncate copied n),
        { b with fd := some n, fileSize := n, eventCount := b.eventCount - events.events })

variable {d d' : Dir FileName} {b b' : FileEventBatch} {ls : List Bytes}
  {l : VectorBatchedEventList} {data : Bytes}

/-! ## A failed append -/

/-- The object is open on its file and knows the size of it. -/
structure Ready (d : Dir FileName) (b : FileEventBatch) : Prop where
  fileSize : b.fileSize = (d.content b.path).length
  fd : ∃ off, b.fd = some off ∧ (b.streamAtEnd = true → off = b.fileSize)

theorem Ready.of_holds (h : Holds d b ls) : Ready d b := by
  obtain ⟨off, hfd, hoff⟩ := h.fd
  refine ⟨by rw [h.fileSize, h.content], off, hfd, fun hs => ?_⟩
  rw [hoff hs, h.fileSize]

/-- `addEvent` writes at the end of the file. -/
theorem Ready.seek (h : Ready d b) : (if b.streamAtEnd = true then b
      else b.seekToEndAndGetFileSize d) = { b with fd := some b.fileSize, streamAtEnd := true } := by
  obtain ⟨off, hfd, hoff⟩ := h.fd
  split
  · next hs =>
    have hfd' : b.fd = some b.fileSize := by rw [hfd, hoff hs]
    rw [← hfd', ← hs]
  · simp only [seekToEndAndGetFileSize, hfd, h.fileSize]

/-- An event that can be added is not refused. -/
theorem not_refused (hfd : b.fd = some off) (hcan : b.canAddEvent data.length = true) :
    ¬(b.fd = none ∨ b.finalized = true ∨ (!b.canAddEventInt data.length) = true) := by
  simp only [canAddEvent, Bool.and_eq_true, Bool.not_eq_true'] at hcan
  simp [hfd, hcan.1, hcan.2]

/-- With the at-end mark set, `addEvent` writes where the descriptor is, wherever that is. -/
theorem addEvent_once (hfd : b.fd = some off) (hend : b.streamAtEnd = true)
    (hcan : b.canAddEvent data.length = true) (hdata : data ≠ []) :
    addEvent 2 (fun _ => data.length) d b data =
      some (true, d.insert b.path (writeAt (d.content b.path) off data),
        { b with fd := some (off + data.length), fileSize := b.fileSize + data.length
                 eventCount := b.eventCount + 1 }) := by
  obtain ⟨rest, hloop⟩ := writeLoop_once (d.content b.path) off hdata
  rw [addEvent, if_neg (not_refused hfd hcan)]
  simp only [hend, if_true, hfd, Option.getD_some, hloop, Bool.false_eq_true, if_false,
    Nat.add_sub_cancel_left]

/-- An event that was added follows the old content, however many writes it took. -/
theorem Ready.addEvent_true (h : Ready d b)
    (hadd : addEvent fuel writes d b data = some (true, d', b')) :
    d'.content b.path = d.content b.path ++ data := by
  rw [addEvent] at hadd
  split at hadd
  · cases hadd
  · simp only [h.seek, Option.getD_some] at hadd
    split at hadd
    · cases hadd
    · next v hv =>
      obtain ⟨m, _, hcontent, -, hall⟩ := writeLoop_spec (Nat.le_of_eq h.fileSize) hv
      split at hadd
      · cases hadd
      · next hfailed =>
        cases hadd
        rw [Dir.content_insert, hcontent, hall (Bool.eq_false_iff.mpr hfailed), List.take_length,
          h.fileSize, writeAt_end]

/-- The call fails and the file is as it was, but the descriptor is not at the end of it. -/
theorem Ready.addEvent_failing (h : Ready d b) (hcan : b.canAddEvent data.length = true)
    {ns : List Nat} (hsum : ns.sum < data.length) (hfuel : ns.length < fuel) :
    ∃ d', addEvent fuel (Transfers.failing ns) d b data =
        some (false, d', { b with fd := some (b.fileSize + ns.sum), streamAtEnd := true }) ∧
      d'.content b.path = d.content b.path := by
  obtain ⟨v, hv, hfailed, hoff⟩ :=
    writeLoop_failing (d.content b.path) b.fileSize hsum hfuel
  obtain ⟨m, -, hcontent, hm, -⟩ := writeLoop_spec (Nat.le_of_eq h.fileSize) hv
  obtain rfl : m = ns.sum := by omega
  rw [h.fileSize, writeAt_end] at hcontent
  obtain ⟨off, hfd, -⟩ := h.fd
  refine ⟨d.insert b.path (d.content b.path), ?_, Dir.content_insert ..⟩
  rw [addEvent, if_neg (not_refused hfd hcan)]
  simp only [h.seek, Option.getD_some, hv, hfailed, hoff, if_true, Nat.add_sub_cancel_left]
  congr 3
  split
  · rw [hcontent, h.fileSize, truncate_of_le (by simp), List.take_left]
  · next hzero =>
    rw [hcontent, Nat.eq_zero_of_not_pos hzero, List.take_zero, List.append_nil]

/-- What a failed append leaves behind: the file and the counters are as before, and so is the place
of the next event. -/
structure Undone (d : Dir FileName) (b : FileEventBatch) (r : Bool × Dir FileName × FileEventBatch) :
    Prop where
  returned : r.1 = false
  content : r.2.1.content b.path = d.content b.path
  fileSize : r.2.2.fileSize = b.fileSize
  eventCount : r.2.2.eventCount = b.eventCount
  next : ∀ fuel writes data d' b', addEvent fuel writes r.2.1 r.2.2 data = some (true, d', b') →
    d'.content b.path = d.content b.path ++ data

/-- **A failed append is undone** exactly if no byte was written before the error: else the next
event is written where the descriptor is, behind a hole. -/
theorem failed_append_undone_iff (h : Ready d b) (hcan : b.canAddEvent data.length = true)
    {ns : List Nat} (hsum : ns.sum < data.length) (hfuel : ns.length < fuel) :
    ∃ r, addEvent fuel (Transfers.failing ns) d b data = some r ∧ (Undone d b r ↔ ns.sum = 0) := by
  obtain ⟨d', hadd, hcontent⟩ := h.addEvent_failing hcan hsum hfuel
  refine ⟨_, hadd, fun hundone => ?_, fun hzero => ?_⟩
  · have hdata : data ≠ [] := List.length_pos_iff.mp (by omega)
    -- the same event once more, in one write
    have hagain := addEvent_once (d := d')
      (b := { b with fd := some (b.fileSize + ns.sum), streamAtEnd := true }) rfl rfl hcan hdata
    have hlen := congrArg List.length (hundone.next _ _ _ _ _ hagain)
    rw [Dir.content_insert, length_writeAt, hcontent, List.length_append, ← h.fileSize] at hlen
    omega
  · refine ⟨rfl, hcontent, rfl, rfl, fun fuel' writes data' d'' b'' hnext => ?_⟩
    have hready : Ready d' { b with fd := some (b.fileSize + ns.sum), streamAtEnd := true } :=
      ⟨by rw [hcontent, ← h.fileSize], _, rfl, fun _ => by rw [hzero]; rfl⟩
    rw [hready.addEvent_true hnext, hcontent]

/-- One byte of an event is written to a new file and then the device is full. -/
theorem failed_append_undone_iff_new : ∃ r, addEvent 2 (Transfers.failing [1])
      (Dir.openCreate ∅ ['f']) (new ∅ ['f']).2 [120, newline] = some r ∧
    (Undone (Dir.openCreate ∅ ['f']) (new ∅ ['f']).2 r ↔ [1].sum = 0) :=
  failed_append_undone_iff ⟨rfl, 0, rfl, by decide⟩ (by decide) (by decide) (by decide)

/-- The next event then starts with a zero byte. -/
theorem failed_append_not_undone : ∃ r, addEvent 2 (Transfers.failing [1])
      (Dir.openCreate ∅ ['f']) (new ∅ ['f']).2 [120, newline] = some r ∧
    ¬Undone (Dir.openCreate ∅ ['f']) (new ∅ ['f']).2 r := by
  refine ⟨_, rfl, fun h => ?_⟩
  have hnext := h.next 2 (fun _ => 2) [121, newline] _ _ rfl
  exact absurd hnext (by decide)

/-! ## Uploads -/

/-- **The nested loops move the rest of the file to its front**, in whatever portions it is read and
written. -/
theorem moveLoop_spec {old content : Bytes} {k w : Nat} (h : Moved old content k w)
    {reads writes : Transfers} (hreads : reads.Positive) (hwrites : writes.Positive)
    (hfuel : old.length + 2 ≤ fuel + (k + w)) :
    ∃ copied, moveLoop fuel reads writes content (k + w) w = some (copied, old.length - k) ∧
      Moved old copied k (old.length - k) := by
  have hle := h.le
  have hlength := h.length
  induction fuel generalizing reads writes content w with
  | zero => omega
  | succ fuel ih =>
    obtain ⟨buf, hread, hpre, hcap, hnil⟩ :=
      read_of_pos (hreads 0) (content.drop (k + w)) (1024 * 1024)
    have hlen := hpre.length_le
    rw [List.length_drop] at hlen
    rw [moveLoop, hread]
    dsimp only
    split
    · next hbuf =>
      have hw : w = old.length - k := by
        have hrest := congrArg List.length ((hnil hbuf).resolve_right (by decide))
        rw [List.length_drop, List.length_nil] at hrest
        omega
      exact ⟨content, by rw [← hw], hw ▸ h⟩
    · next hbuf =>
      have hpos := List.length_pos_iff.mpr hbuf
      obtain ⟨v, hv, hfailed, hrest⟩ :=
        writeLoop_of_positive hwrites content w (show buf.length < fuel by omega)
      obtain ⟨m, -, hcontent, hoff, hall⟩ := writeLoop_spec (by omega) hv
      rw [hall hfailed, List.take_length] at hcontent
      rw [hall hfailed] at hoff
      have hstep := h.write hpre
      rw [← hcontent, ← hoff] at hstep
      rw [hv]
      dsimp only
      rw [show k + w + buf.length = k + v.off by omega]
      exact ih hstep hreads.tail hrest (by omega) hstep.le hstep.length

/-- Without errors, short reads and writes make no difference to an acknowledgement. -/
theorem onEventsUploaded_eq (hsize : b.fileSize = (d.content b.path).length)
    (hl : l.data.length ≤ b.fileSize) {reads writes : Transfers} (hreads : reads.Positive)
    (hwrites : writes.Positive) (hfuel : b.fileSize + 2 ≤ fuel) :
    onEventsUploaded fuel reads writes d b l = some (FileEventBatch.onEventsUploaded d b l) := by
  rw [hsize] at hl hfuel
  obtain ⟨copied, hmove, hmoved⟩ :=
    moveLoop_spec (Moved.start hl) hreads hwrites (Nat.le_add_right_of_le hfuel)
  obtain ⟨copied', hcopy, hmoved'⟩ :=
    copyLoop_spec (Moved.start hl) (d.content b.path).length (Nat.le_add_right _ _)
  have htrunc := hmoved.truncate.trans hmoved'.truncate.symm
  rw [Nat.add_zero] at hmove hcopy
  rw [onEventsUploaded, FileEventBatch.onEventsUploaded]
  split
  · rfl
  · split
    · split <;> rfl
    · simp only [hmove, hcopy, htrunc]

/-- The same holds of the events read for an upload. -/
theorem getEventsForUpload_eq {reads : Transfers} (hreads : reads.Positive) (d : Dir FileName)
    (b : FileEventBatch) (c z : Nat) :
    getEventsForUpload reads d b c z = FileEventBatch.getEventsForUpload d b c z := by
  rw [getEventsForUpload, FileEventBatch.getEventsForUpload]
  simp only [readLoop_of_positive hreads _ (Nat.lt_succ_self _)]

/-- **An uploaded front part is removed**: the file is left without its bytes, and the counters
follow. -/
theorem uploaded_prefix_removed (h : Holds d b ls) (hl : HandedOut b ls l)
    (hproper : l.data.length < b.fileSize) {reads writes : Transfers} (hreads : reads.Positive)
    (hwrites : writes.Positive) (hfuel : b.fileSize + 2 ≤ fuel) :
    ∃ d' b', onEventsUploaded fuel reads writes d b l = some (d', b') ∧
      d'.content b.path = (d.content b.path).drop l.data.length ∧
      b'.fileSize = (d'.content b.path).length ∧ b'.eventCount + l.events = b.eventCount := by
  have hsize : b.fileSize = (d.content b.path).length := by rw [h.fileSize, h.content]
  have hrest : ¬(b.finalized = true ∧ l.events = ls.length) := by
    rintro ⟨-, hall⟩
    rw [hl.data, hall, List.take_length, h.fileSize] at hproper
    exact Nat.lt_irrefl _ hproper
  obtain ⟨d', b', heq, hpath, -, -, -, hcases⟩ := h.onEventsUploaded hl
  obtain ⟨-, hd', h'⟩ := hcases.resolve_left fun hempty => hrest ⟨hempty.1, hempty.2.1⟩
  refine ⟨d', b', ?_, ?_, ?_, ?_⟩
  · rw [onEventsUploaded_eq hsize (Nat.le_of_lt hproper) hreads hwrites hfuel, heq]
  · rw [hd', Dir.content_insert, h.content, hl.data, drop_flatten_take]
  · rw [h'.fileSize, ← hpath, h'.content]
  · have := hl.le
    rw [h'.eventCount, h.eventCount, List.length_drop]
    omega

/-- The first of two lines is removed, reading and writing single bytes. -/
theorem uploaded_prefix_removed_two : ∃ d' b', onEventsUploaded 6 (fun _ => 1) (fun _ => 1)
      (AList.insert ['f'] [120, newline, 121, newline] ∅)
      { path := ['f'], fd := some 4, fileSize := 4, eventCount := 2, streamAtEnd := false
        finalized := false, maxCount := 0, maxSize := 0 } ⟨[120, newline], 1, true⟩ = some (d', b') ∧
    Dir.content d' ['f'] = [121, newline] ∧ b'.fileSize = (Dir.content d' ['f']).length ∧
    b'.eventCount + 1 = 2 := by
  have h : Holds (AList.insert ['f'] [120, newline, 121, newline] ∅)
      { path := ['f'], fd := some 4, fileSize := 4, eventCount := 2, streamAtEnd := false
        finalized := false, maxCount := 0, maxSize := 0 } [[120, newline], [121, newline]] :=
    ⟨(AList.mem_insert _).mpr (.inl rfl),
      fun l hl => isLine_of_mem_lines (show l ∈ lines [120, newline, 121, newline] from hl),
      rfl, rfl, rfl, _, rfl, by decide⟩
  exact uploaded_prefix_removed h ⟨by decide, rfl, by decide⟩ (by decide) (fun _ => by decide)
    (fun _ => by decide) (by decide)

/-- What the file batch hands out of some events: as many of the first as the limits allow. -/
theorem getEventsForUpload_longest {es : List Event} (h : Holds d b (es.map Event.record))
    (hes : es ≠ []) (hc : 1 ≤ c) (hz : z ≤ readCap) : ∃ k, LongestPrefix es c z k ∧
      (FileEventBatch.getEventsForUpload d b c z).1 =
        some ⟨records (es.take k), k, decide (k < es.length)⟩ := by
  have hne : es.map Event.record ≠ [] := by rwa [Ne, List.map_eq_nil_iff]
  obtain ⟨m, hm, hlines, off, heq⟩ := h.getEventsForUpload_eq hne hc z
  rw [List.length_map] at hm
  have hfit : ∀ j ≤ es.length, (records (es.take j)).length ≤ min (min z readCap) b.fileSize ↔
      j ≤ m := by
    intro j hj
    rw [records, List.map_take]
    exact flatten_take_length_le_iff h.isLine hlines (by rwa [List.length_map])
      (by rwa [List.length_map])
  have hsize : ∀ j, (records (es.take j)).length ≤ b.fileSize := by
    intro j
    rw [h.fileSize, records, List.map_take, ← take_flatten_take, List.length_take]
    exact Nat.min_le_right _ _
  have hle : min c m ≤ es.length := Nat.le_trans (Nat.min_le_right _ _) hm
  have hmore : (records (es.take (min c m))).length < b.fileSize ↔ min c m < es.length := by
    have hall := flatten_take_length_eq_iff h.isLine (k := min c m) (by rwa [List.length_map])
    rw [← List.map_take, List.length_map, ← h.fileSize] at hall
    have := hsize (min c m)
    rw [records] at this ⊢
    omega
  refine ⟨min c m, ⟨hle, Nat.min_le_left _ _, ?_, fun j hj hcount hjz => ?_⟩, ?_⟩
  · have := (hfit _ hle).mpr (Nat.min_le_right _ _)
    omega
  · have := (hfit j hj).mp (by have := hsize j; omega)
    omega
  · rw [heq, ← List.map_take, ← records, decide_eq_decide.mpr hmore]

/-- **The memory batch and the file batch agree** on the events for an upload: the longest front
part within the limits, however short the reads are. -/
theorem uploads_agree {es : List Event} (h : Holds d b (es.map Event.record)) (hes : es ≠ [])
    {m : MemoryEventBatch} (hm : m.items = es) {reads : Transfers} (hreads : reads.Positive)
    (hc : 1 ≤ c) (hz : 1 ≤ z) (hcap : z ≤ 1024 * 1024) : ∃ k, LongestPrefix es c z k ∧
      m.getEventsForUpload c z = some ⟨records (es.take k), k, decide (k < es.length)⟩ ∧
      (getEventsForUpload reads d b c z).1 =
        some ⟨records (es.take k), k, decide (k < es.length)⟩ := by
  subst hm
  obtain ⟨k, hk, hfile⟩ := getEventsForUpload_longest h hes hc hcap
  obtain ⟨k', hk', hmemory⟩ := m.getEventsForUpload_longest hes hc hz
  obtain rfl := hk.unique hk'
  exact ⟨k, hk, hmemory, by rw [getEventsForUpload_eq hreads, hfile]⟩

/-- Two events of which one fits exactly, read byte by byte. -/
theorem uploads_agree_two : ∃ k, LongestPrefix [⟨[120], by decide⟩, ⟨[121], by decide⟩] 5 3 k ∧
    MemoryEventBatch.getEventsForUpload ⟨[⟨[120], by decide⟩, ⟨[121], by decide⟩], 10⟩ 5 3 =
      some ⟨records ([⟨[120], by decide⟩, ⟨[121], by decide⟩].take k), k, decide (k < 2)⟩ ∧
    (getEventsForUpload (fun _ => 1) (AList.insert ['f'] [120, 13, newline, 121, 13, newline] ∅)
      { path := ['f'], fd := some 6, fileSize := 6, eventCount := 2, streamAtEnd := false
        finalized := false, maxCount := 0, maxSize := 0 } 5 3).1 =
      some ⟨records ([⟨[120], by decide⟩, ⟨[121], by decide⟩].take k), k, decide (k < 2)⟩ := by
  have h : Holds (AList.insert ['f'] [120, 13, newline, 121, 13, newline] ∅)
      { path := ['f'], fd := some 6, fileSize := 6, eventCount := 2, streamAtEnd := false
        finalized := false, maxCount := 0, maxSize := 0 }
      ([(⟨[120], by decide⟩ : Event), ⟨[121], by decide⟩].map Event.record) :=
    ⟨(AList.mem_insert _).mpr (.inl rfl), fun _ => isLine_of_mem_records, rfl, rfl, rfl, _, rfl,
      by decide⟩
  exact uploads_agree h (by decide) rfl (fun _ => by decide) (by decide) (by decide) (by decide)

end FileEventBatch.ShortIo

end McpeLauncher.Telemetry
