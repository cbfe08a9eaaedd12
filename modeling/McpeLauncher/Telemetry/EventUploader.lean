import McpeLauncher.Telemetry.BufferedEventBatch
import McpeLauncher.Telemetry.MultiFileQueue

/-!
# The uploader

`cll::EventUploader`: one request for a list of events, and `sendEvents` for a batch, which reads
a list, posts it and acknowledges it. The network, the clock, the compressor and the upload steps
are parameters; they act on a state `ω` of the world outside.

A batch makes progress if `sendEvents` fails or removes an event. When no list can be read at all,
`sendEvents` drops the first event, but a batch whose first event is too large hands out an empty
list instead, which is uploaded and acknowledged without removing anything.
-/

namespace McpeLauncher.Telemetry
open ByteLines

/-- How a call ends that does not return: without defined behaviour, with an exception, or not
within the given number of rounds. -/
inductive Fault
  | undefined
  | invalidArgument
  | outOfRange
  | outOfFuel
  deriving DecidableEq

def defined : Option α → Except Fault α
  | none => .error .undefined
  | some a => .ok a

inductive EventUploadStatus.State
  | Success
  | ErrorGeneric
  | ErrorRateLimit
  deriving DecidableEq

structure EventUploadStatus where
  state : EventUploadStatus.State
  retryAfter : Int
  deriving DecidableEq

namespace EventUploadStatus

def success : EventUploadStatus := ⟨.Success, 0⟩

def error : EventUploadStatus := ⟨.ErrorGeneric, 0⟩

def rateLimit (retryAfter : Int) : EventUploadStatus := ⟨.ErrorRateLimit, retryAfter⟩

/-- `operator bool`. -/
def toBool (s : EventUploadStatus) : Bool := s.state = .Success

end EventUploadStatus

abbrev Headers := List (String × String)

/-- A `POST` request. -/
structure HttpRequest where
  url : String
  headers : Headers
  postData : Bytes

structure HttpResponse where
  status : Int
  headers : Headers
  body : Bytes

def HttpResponse.findHeader (res : HttpResponse) (name : String) : String :=
  ((res.headers.find? (·.1 = name)).map (·.2)).getD ""

/-- `EventUploadStep`: what it adds to the headers of a request for some data, and whether it wants
a retry after a failed authentication. -/
structure EventUploadStep (ω : Type) where
  onRequest : Bytes → Headers → ω → Headers × ω
  onAuthenticationFailed : ω → Bool × ω

/-- The uploader with what it calls: `send` gives no response if it throws an `HttpError`. -/
structure EventUploader (ω : Type) where
  url : String
  steps : List (EventUploadStep ω)
  send : HttpRequest → ω → Option HttpResponse × ω
  getUploadTimestamp : ω → String
  compress : Bytes → Bytes

namespace EventUploader
variable (U : EventUploader ω)

/-- The request for some data, with the headers of the steps after its own. -/
def createRequest (data : Bytes) (compress : Bool) (w : ω) : HttpRequest × ω :=
  let headers := [("Content-Type", "application/x-json-stream; charset=utf-8"),
    ("X-UploadTime", U.getUploadTimestamp w)]
  let headers := if compress then headers ++ [("Accept", "application/json"),
    ("Accept-Encoding", "gzip, deflate"), ("Content-Encoding", "deflate")] else headers
  let (userHeaders, w) :=
    U.steps.foldl (fun (hs, w) step => step.onRequest data hs w) (([] : Headers), w)
  ({ url := U.url, headers := headers ++ userHeaders
     postData := if compress then U.compress data else data }, w)

/-- `std::chrono::seconds(std::stoull(retryAfter))`: values beyond `unsigned long long` throw, the
others wrap to the signed representation. -/
def retryAfterSeconds (retryAfter : String) : Except Fault Int :=
  match stoull retryAfter.toList with
  | none => .error .invalidArgument
  | some n => if n.natAbs < UInt64.size then .ok (n.bmod UInt64.size) else .error .outOfRange

/-- One request and what follows from the answer to it, with `retry` for the second attempt. -/
def attempt (data : Bytes) (compress : Bool) (w : ω)
    (retry : ω → Except Fault (EventUploadStatus × ω)) : Except Fault (EventUploadStatus × ω) :=
  let (req, w) := U.createRequest data compress w
  match U.send req w with
  | (none, w) => .ok (.error, w)
  | (some res, w) =>
    if res.status = 200 then .ok (.success, w)
    else if res.status = 429 ∨ res.status = 503 then
      let retryAfter := res.findHeader "Retry-After"
      if retryAfter.isEmpty then .ok (.error, w)
      else do return (.rateLimit (← retryAfterSeconds retryAfter), w)
    else if res.status = 401 then
      let (wanted, w) := U.steps.foldl (fun (wanted, w) step =>
        let (r, w) := step.onAuthenticationFailed w
        (wanted || r, w)) (false, w)
      if wanted then retry w else .ok (.error, w)
    else .ok (.error, w)

/-- `sendEvents(BatchedEventList&, bool, bool)`: the second attempt is the last one. -/
def sendEventList (data : Bytes) (compress canRetry : Bool) (w : ω) :
    Except Fault (EventUploadStatus × ω) :=
  U.attempt data compress w fun w =>
    if canRetry then U.attempt data compress w fun w => .ok (.error, w) else .ok (.error, w)

/-- `sendEvents(EventBatch&, size_t, size_t)`, for at most so many recursive calls. -/
def sendEvents (B : EventBatch σ ℓ) (maxCount maxSize : Nat) :
    Nat → σ → ω → Except Fault (EventUploadStatus × σ × ω)
  | 0, _, _ => .error .outOfFuel
  | fuel + 1, b, w => do
    let (events, b) ← defined (B.getEventsForUpload b maxCount maxSize)
    match events with
    | none =>
      if B.hasEvents b then
        let (ev, b) ← defined (B.getEventsForUpload b 1 SIZE_MAX)
        match ev with
        | none => return (.error, b, w)
        | some ev => sendEvents B maxCount maxSize fuel (← defined (B.onEventsUploaded b ev)) w
      else return (.success, b, w)
    | some events =>
      let count ← defined (B.getEventCount events)
      let data ← defined (B.getData events)
      let (ret, w) ← U.sendEventList data (count > 1) true w
      if ret.toBool then return (ret, ← defined (B.onEventsUploaded b events), w)
      else return (ret, b, w)

/-- The server answers every request with 200. -/
def Answers200 : Prop := ∀ req w, ∃ res w', U.send req w = (some res, w') ∧ res.status = 200

/-- `sendEvents` returns, and it fails or leaves fewer events in the batch. -/
def Progress (B : EventBatch σ ℓ) (content : σ → List Bytes) (maxCount maxSize : Nat) (b : σ)
    (w : ω) : Prop :=
  ∃ fuel status b' w', U.sendEvents B maxCount maxSize fuel b w = .ok (status, b', w') ∧
    (status.toBool = false ∨ (content b').length < (content b).length)

/-! ## How `sendEvents` ends -/

variable {U} {B : EventBatch σ ℓ}

theorem sendEventList_success (h : U.Answers200) (data : Bytes) (compress canRetry : Bool) (w : ω) :
    ∃ w', U.sendEventList data compress canRetry w = .ok (.success, w') := by
  obtain ⟨res, w', hsend, hstatus⟩ :=
    h (U.createRequest data compress w).1 (U.createRequest data compress w).2
  exact ⟨w', by simp only [sendEventList, attempt, hsend, hstatus, if_true]⟩

/-- A list that can be read is uploaded and acknowledged. -/
theorem sendEvents_some (h : U.Answers200) (hget : B.getEventsForUpload b c z = some (some l, b'))
    (hcount : B.getEventCount l = some n) (hdata : B.getData l = some data)
    (hack : B.onEventsUploaded b' l = some b'') (w : ω) :
    ∃ w', ∀ fuel, U.sendEvents B c z (fuel + 1) b w = .ok (.success, b'', w') := by
  obtain ⟨w', hsend⟩ := sendEventList_success h data (n > 1) true w
  refine ⟨w', fun fuel => ?_⟩
  simp only [sendEvents, hget, hcount, hdata, hack, defined, hsend, bind, Except.bind, pure,
    Except.pure, EventUploadStatus.toBool, EventUploadStatus.success, decide_true, if_true]

/-- Without a list, and without an event to drop, the upload fails. -/
theorem sendEvents_stuck (hget : ∀ c z, B.getEventsForUpload b c z = some (none, b))
    (hev : B.hasEvents b = true) (c z fuel : Nat) (w : ω) :
    U.sendEvents B c z (fuel + 1) b w = .ok (.error, b, w) := by
  simp only [sendEvents, hget, hev, defined, bind, Except.bind, pure, Except.pure, if_true]

/-- A list that can be read but not looked into is the end. -/
theorem sendEvents_undefined (hget : B.getEventsForUpload b c z = some (some l, b'))
    (hcount : B.getEventCount l = none) (fuel : Nat) (w : ω) :
    ∀ r, U.sendEvents B c z fuel b w ≠ .ok r := by
  cases fuel with
  | zero => simp [sendEvents]
  | succ fuel =>
    simp [sendEvents, hget, hcount, defined, bind, Except.bind]

/-- An upload that succeeds makes progress if and only if it removes an event. -/
theorem progress_iff_of_success {content : σ → List Bytes}
    (hsend : ∀ fuel, U.sendEvents B c z (fuel + 1) b w = .ok (.success, b', w'))
    (hlen : (content b').length + n = (content b).length) :
    U.Progress B content c z b w ↔ 0 < n := by
  constructor
  · rintro ⟨fuel, status, b₁, w₁, hsend₁, hprog⟩
    cases fuel with
    | zero => cases hsend₁
    | succ fuel =>
      rw [hsend, Except.ok.injEq, Prod.mk.injEq, Prod.mk.injEq] at hsend₁
      obtain ⟨rfl, rfl, rfl⟩ := hsend₁
      rcases hprog with hfail | hless
      · cases hfail
      · omega
  · intro hn
    exact ⟨1, _, _, _, hsend 0, .inr (by omega)⟩

end EventUploader

/-! ## The three batches -/

/-- The first of some records fits into so many bytes. -/
def FirstFits (rs : List Bytes) (maxSize : Nat) : Prop := ∃ r ∈ rs.head?, r.length ≤ maxSize

theorem firstFits_cons : FirstFits (r :: rs) z ↔ r.length ≤ z := by
  simp [FirstFits]

namespace MemoryEventBatch
variable {b : MemoryEventBatch} {U : EventUploader ω}

def storedLines (b : MemoryEventBatch) : List Bytes := b.items.map Event.record

/-- The upload of a batch in memory removes events if and only if the first one fits. -/
theorem sendEvents_spec (h : U.Answers200) (hes : b.items = e :: es) (hc : 1 ≤ c) (hz : 1 ≤ z)
    (w : ω) : ∃ n ≤ b.items.length, ∃ w', (∀ fuel, U.sendEvents batch c z (fuel + 1) b w =
      .ok (.success, { b with items := b.items.drop n }, w')) ∧
      (0 < n ↔ e.record.length ≤ z) := by
  obtain ⟨l, hget, hfit⟩ := getEventsForUpload_cons hes hc hz
  obtain ⟨hle, hdata, _⟩ := getEventsForUpload_spec hget
  have hget' : batch.getEventsForUpload b c z = some (some l, b) := by rw [← hget]; rfl
  obtain ⟨w', hsend⟩ := EventUploader.sendEvents_some h hget' rfl rfl (if_pos hle) w
  exact ⟨l.events, hle, w', hsend, hfit⟩

theorem progress_iff (h : U.Answers200) (hne : b.storedLines ≠ []) (hc : 1 ≤ c) (hz : 1 ≤ z)
    (w : ω) : U.Progress batch storedLines c z b w ↔ FirstFits b.storedLines z := by
  obtain ⟨e, es, hes⟩ := List.exists_cons_of_ne_nil (by simpa [storedLines] using hne)
  obtain ⟨n, hle, w', hsend, hfit⟩ := sendEvents_spec h hes hc hz w
  rw [EventUploader.progress_iff_of_success hsend (n := n) (by simp [storedLines]; omega), hfit]
  simp [storedLines, hes, FirstFits]

end MemoryEventBatch

namespace MultiFileEventBatch
variable {b : MultiFileEventBatch} {old : List (Int × List Event)} {new : List Event}
  {U : EventUploader ω}

theorem Stores.length_storedLines (h : b.Stores old new) :
    b.storedLines.length = (eventsOf old new).length := by
  rw [h.storedLines, List.length_map]

/-- The upload of files that are not stuck removes events if and only if the first one fits into a
request and into what is read of a file. -/
theorem Stores.sendEvents_spec (h : U.Answers200) (hs : b.Stores old new) (hstuck : ¬b.Stuck)
    (hes : eventsOf old new = e :: es) (hc : 1 ≤ c) (z : Nat) (w : ω) :
    ∃ n ≤ (eventsOf old new).length, ∃ b' w' old' new',
      (∀ fuel, U.sendEvents batch c z (fuel + 1) b w = .ok (.success, b', w')) ∧
      b'.Stores old' new' ∧ eventsOf old' new' = (eventsOf old new).drop n ∧
      ((∀ f ∈ old, f.2 ≠ []) → ∀ f ∈ old', f.2 ≠ []) ∧
      (0 < n ↔ e.record.length ≤ min z FileEventBatch.readCap) := by
  obtain ⟨old', r, b', hget, hs', hevents, hsub, hout, _, hread⟩ := hs.getEventsForUpload c z
  obtain ⟨l, rfl, _, hfit⟩ := (hread hstuck).2 hc e es hes
  have hl := (hout l rfl).1
  obtain ⟨old₂, new₂, hs₂, hevents₂, hne⟩ := hs'.onEventsUploaded hl
  obtain ⟨w', hsend⟩ := EventUploader.sendEvents_some h (B := batch) (congrArg some hget) rfl rfl
    rfl w
  rw [hevents] at hevents₂
  exact ⟨l.wrapped.events, hevents ▸ (contents hl).1, _, w', old₂, new₂, hsend, hs₂, hevents₂,
    fun h => hne fun f hf => h f (hsub f hf), hfit⟩

/-- Stuck files count as a failed upload. -/
theorem Stores.progress_iff (h : U.Answers200) (hs : b.Stores old new) (hne : b.storedLines ≠ [])
    (hc : 1 ≤ c) (z : Nat) (w : ω) : U.Progress batch MultiFileEventBatch.storedLines c z b w ↔
      b.Stuck ∨ FirstFits b.storedLines (min z FileEventBatch.readCap) := by
  rw [hs.storedLines, Ne, List.map_eq_nil_iff] at hne
  by_cases hstuck : b.Stuck
  · refine iff_of_true ⟨1, _, _, _, EventUploader.sendEvents_stuck (fun c z => ?_)
      (hs.hasEvents_of_ne_nil hne) c z 0 w, .inl rfl⟩ (.inl hstuck)
    obtain ⟨_, r, b', hget, _, _, _, _, hnone, _⟩ := hs.getEventsForUpload c z
    obtain ⟨rfl, rfl⟩ := hnone hstuck
    exact congrArg some hget
  · obtain ⟨e, es, hes⟩ := List.exists_cons_of_ne_nil hne
    obtain ⟨n, hle, b', w', old', new', hsend, hs', hevents, _, hfit⟩ :=
      hs.sendEvents_spec h hstuck hes hc z w
    have hlen : b'.storedLines.length + n = b.storedLines.length := by
      rw [hs'.length_storedLines, hs.length_storedLines, hevents, List.length_drop]
      omega
    rw [EventUploader.progress_iff_of_success hsend hlen, hfit, hs.storedLines, hes, List.map_cons,
      firstFits_cons]
    exact ⟨.inr, fun h => h.resolve_left hstuck⟩

end MultiFileEventBatch

namespace BufferedEventBatch
open MultiFileEventBatch
variable {b : BufferedEventBatch MultiFileEventBatch} {old : List (Int × List Event)}
  {new : List Event} {U : EventUploader ω}

/-- The buffered batch in front of files. -/
abbrev overFiles :
    EventBatch (BufferedEventBatch MultiFileEventBatch) (BufferedEventList MultiFileEventList) :=
  BufferedEventBatch.batch MultiFileEventBatch.batch

def storedLines (b : BufferedEventBatch MultiFileEventBatch) : List Bytes :=
  b.wrapped.storedLines ++ b.mem.storedLines

/-- The first event that can be reached fits. It is in memory if the files are stuck or hold none;
there it has to fit into a request only, in a file also into what is read of a file. -/
def HeadFits (b : BufferedEventBatch MultiFileEventBatch) (maxSize : Nat) : Prop :=
  (b.wrapped.Stuck ∨ b.wrapped.storedLines = [] → FirstFits b.mem.storedLines maxSize) ∧
    (¬b.wrapped.Stuck ∧ b.wrapped.storedLines ≠ [] →
      FirstFits b.wrapped.storedLines (min maxSize FileEventBatch.readCap))

/-- The files can be read: they are not stuck and store an event. -/
theorem headFits_files (hs : b.wrapped.Stores old new)
    (hfiles : ¬b.wrapped.Stuck ∧ eventsOf old new ≠ []) (z : Nat) :
    b.HeadFits z ↔ FirstFits b.wrapped.storedLines (min z FileEventBatch.readCap) := by
  have hempty : b.wrapped.storedLines ≠ [] := by
    rw [hs.storedLines, Ne, List.map_eq_nil_iff]
    exact hfiles.2
  refine ⟨fun h => h.2 ⟨hfiles.1, hempty⟩, fun h => ⟨fun hor => ?_, fun _ => h⟩⟩
  exact (hor.elim hfiles.1 hempty).elim

theorem headFits_memory (hs : b.wrapped.Stores old new)
    (hfiles : ¬(¬b.wrapped.Stuck ∧ eventsOf old new ≠ [])) (z : Nat) :
    b.HeadFits z ↔ FirstFits b.mem.storedLines z := by
  have hempty : ¬(¬b.wrapped.Stuck ∧ b.wrapped.storedLines ≠ []) := by
    rw [hs.storedLines, Ne, List.map_eq_nil_iff]
    exact hfiles
  have hor : b.wrapped.Stuck ∨ b.wrapped.storedLines = [] := by
    by_contra hnot
    exact hempty (not_or.mp hnot)
  exact ⟨fun h => h.1 hor, fun h => ⟨fun _ => h, fun hand => absurd hand hempty⟩⟩

/-- `getEventsForUpload` in front of files that give no list. -/
theorem getEventsForUpload_memory (hget : b.wrapped.getEventsForUpload c z = (none, w')) :
    ∃ w'' ∈ [w', b.wrapped], overFiles.getEventsForUpload b c z =
      some (some (.memory (b.mem.getEventsForUpload c z)), { b with wrapped := w'' }) := by
  by_cases hev : MultiFileEventBatch.batch.hasEvents b.wrapped = true
  · refine ⟨w', by simp, ?_⟩
    simp only [overFiles, batch, BufferedEventBatch.getEventsForUpload, if_pos hev]
    simp only [MultiFileEventBatch.batch, hget, Option.bind_eq_bind, Option.bind_some]
    rfl
  · refine ⟨b.wrapped, by simp, ?_⟩
    simp only [overFiles, batch, BufferedEventBatch.getEventsForUpload, if_neg hev]
    rfl

theorem sendEvents_memory (h : U.Answers200)
    (hget : overFiles.getEventsForUpload b c z =
      some (some (.memory (b.mem.getEventsForUpload c z)), { b with wrapped := w' }))
    (hes : b.mem.items = e :: es) (hc : 1 ≤ c) (hz : 1 ≤ z) (w : ω) :
    ∃ n ≤ b.mem.items.length, ∃ w₁, (∀ fuel, U.sendEvents overFiles c z (fuel + 1) b w =
      .ok (.success, ⟨w', { b.mem with items := b.mem.items.drop n }⟩, w₁)) ∧
      (0 < n ↔ e.record.length ≤ z) := by
  obtain ⟨l, hmem, hfit⟩ := MemoryEventBatch.getEventsForUpload_cons hes hc hz
  obtain ⟨hle, _⟩ := MemoryEventBatch.getEventsForUpload_spec hmem
  rw [hmem] at hget
  have hack : overFiles.onEventsUploaded { b with wrapped := w' } (.memory (some l)) =
      some { wrapped := w', mem := { b.mem with items := b.mem.items.drop l.events } } := by
    simp [overFiles, batch, BufferedEventBatch.onEventsUploaded, MemoryEventBatch.onEventsUploaded,
      hle]
  obtain ⟨w₁, hsend⟩ := EventUploader.sendEvents_some h hget rfl rfl hack w
  exact ⟨l.events, hle, w₁, hsend, hfit⟩

/-- Without events in memory either, the list cannot be looked into. -/
theorem sendEvents_null (hget : overFiles.getEventsForUpload b c z =
      some (some (.memory (b.mem.getEventsForUpload c z)), { b with wrapped := w' }))
    (hnil : b.mem.items = []) (w : ω) (content : BufferedEventBatch MultiFileEventBatch → List Bytes) :
    ¬U.Progress overFiles content c z b w := by
  have hnone : b.mem.getEventsForUpload c z = none :=
    MemoryEventBatch.getEventsForUpload_eq_none.mpr (.inr (.inr hnil))
  rw [hnone] at hget
  rintro ⟨fuel, status, b₁, w₁, hsend, _⟩
  exact EventUploader.sendEvents_undefined hget rfl fuel w _ hsend

/-- Events from memory are only added to a list that holds all events of the files. -/
theorem getMoreEvents_files (b : BufferedEventBatch MultiFileEventBatch) (l : MultiFileEventList)
    (c z : Nat) : ∃ more, b.getMoreEvents MultiFileEventBatch.batch l c z = some more ∧
      ∀ m, more = some m → (l.hasMoreFiles || l.wrapped.moreEvents) = false ∧
        b.mem.getEventsForUpload (sizeSub c l.wrapped.events)
          (sizeSub z l.wrapped.data.length) = some m := by
  simp only [getMoreEvents, MultiFileEventBatch.batch, Option.bind_eq_bind, Option.bind_some,
    Option.pure_def]
  split
  · next hmem =>
    rw [Bool.and_eq_true, Bool.not_eq_true'] at hmem
    exact ⟨_, rfl, fun m hm => ⟨hmem.1, hm⟩⟩
  · exact ⟨none, rfl, fun m hm => by cases hm⟩

/-- `getEventsForUpload` in front of files that give a list, with no events from memory added. -/
theorem getEventsForUpload_wrapped (hev : b.wrapped.hasEvents = true)
    (hget : b.wrapped.getEventsForUpload c z = (some l, w'))
    (hmore : { b with wrapped := w' }.getMoreEvents MultiFileEventBatch.batch l c z = some none) :
    overFiles.getEventsForUpload b c z =
      some (some (.wrapped l b.mem.hasEvents), { b with wrapped := w' }) := by
  have hev' : MultiFileEventBatch.batch.hasEvents b.wrapped = true := hev
  have hget' : MultiFileEventBatch.batch.getEventsForUpload b.wrapped c z = some (some l, w') :=
    congrArg some hget
  simp only [overFiles, batch, BufferedEventBatch.getEventsForUpload, if_pos hev', hget', hmore,
    Option.bind_eq_bind, Option.bind_some]

/-- `getEventsForUpload` in front of files that give a list to which the events `m` from memory are
added. -/
theorem getEventsForUpload_merged {m : VectorBatchedEventList} (hev : b.wrapped.hasEvents = true)
    (hget : b.wrapped.getEventsForUpload c z = (some l, w'))
    (hmore : { b with wrapped := w' }.getMoreEvents MultiFileEventBatch.batch l c z =
      some (some m)) :
    overFiles.getEventsForUpload b c z = some (some (.merged l m), { b with wrapped := w' }) := by
  have hev' : MultiFileEventBatch.batch.hasEvents b.wrapped = true := hev
  have hget' : MultiFileEventBatch.batch.getEventsForUpload b.wrapped c z = some (some l, w') :=
    congrArg some hget
  simp only [overFiles, batch, BufferedEventBatch.getEventsForUpload, if_pos hev', hget', hmore,
    Option.bind_eq_bind, Option.bind_some]

/-- A list of the files is acknowledged there. -/
theorem sendEvents_files (h : U.Answers200) (hev : b.wrapped.hasEvents = true)
    (hget : b.wrapped.getEventsForUpload c z = (some l, w'))
    (w : ω) : ∃ m ≤ b.mem.items.length, ∃ w₁, (∀ fuel, U.sendEvents overFiles c z (fuel + 1) b w =
      .ok (.success, ⟨w'.onEventsUploaded l, { b.mem with items := b.mem.items.drop m }⟩, w₁)) ∧
      (0 < m → (l.hasMoreFiles || l.wrapped.moreEvents) = false) := by
  obtain ⟨more, hmore, hmem⟩ := getMoreEvents_files { b with wrapped := w' } l c z
  cases more with
  | none =>
    obtain ⟨w₁, hsend⟩ := EventUploader.sendEvents_some h
      (getEventsForUpload_wrapped hev hget hmore) rfl rfl rfl w
    exact ⟨0, Nat.zero_le _, w₁, hsend, by simp⟩
  | some m =>
    obtain ⟨hlast, hm⟩ := hmem m rfl
    obtain ⟨hle, _⟩ := MemoryEventBatch.getEventsForUpload_spec hm
    have hack : overFiles.onEventsUploaded { b with wrapped := w' } (.merged l m) =
        some ⟨w'.onEventsUploaded l, { b.mem with items := b.mem.items.drop m.events }⟩ := by
      simp [overFiles, batch, BufferedEventBatch.onEventsUploaded, MultiFileEventBatch.batch,
        MemoryEventBatch.onEventsUploaded, hle]
    obtain ⟨w₁, hsend⟩ := EventUploader.sendEvents_some h
      (getEventsForUpload_merged hev hget hmore) (n := l.wrapped.events + m.events) rfl rfl hack w
    exact ⟨m.events, hle, w₁, hsend, fun _ => hlast⟩

/-- The upload of a buffered batch with something to upload: `n` events of the files and `m` of
the memory are removed, and none exactly if the first event does not fit. -/
theorem sendEvents_spec (h : U.Answers200) (hs : b.wrapped.Stores old new) (hc : 1 ≤ c)
    (hz : 1 ≤ z) (hne : (¬b.wrapped.Stuck ∧ eventsOf old new ≠ []) ∨ b.mem.items ≠ []) (w : ω) :
    ∃ n ≤ (eventsOf old new).length, ∃ m ≤ b.mem.items.length, ∃ wrapped' w' old' new',
      (∀ fuel, U.sendEvents overFiles c z (fuel + 1) b w =
        .ok (.success, ⟨wrapped', { b.mem with items := b.mem.items.drop m }⟩, w')) ∧
      wrapped'.Stores old' new' ∧ eventsOf old' new' = (eventsOf old new).drop n ∧
      ((∀ f ∈ old, f.2 ≠ []) → ∀ f ∈ old', f.2 ≠ []) ∧ (0 < n + m ↔ b.HeadFits z) := by
  by_cases hfiles : ¬b.wrapped.Stuck ∧ eventsOf old new ≠ []
  · obtain ⟨old', r, w', hget, hs', hevents, hsub, hout, _, hread⟩ := hs.getEventsForUpload c z
    obtain ⟨e, es, hes⟩ := List.exists_cons_of_ne_nil hfiles.2
    obtain ⟨l, rfl, _, hfit⟩ := (hread hfiles.1).2 hc e es hes
    obtain ⟨hl, hall⟩ := hout l rfl
    obtain ⟨old₂, new₂, hs₂, hevents₂, hkeep⟩ := hs'.onEventsUploaded hl
    obtain ⟨m, hm, w₁, hsend, hmore⟩ :=
      sendEvents_files h (hs.hasEvents_of_ne_nil hfiles.2) hget w
    rw [hevents] at hevents₂
    refine ⟨l.wrapped.events, hevents ▸ (Stores.contents hl).1, m, hm, _, w₁, old₂, new₂, hsend,
      hs₂, hevents₂, fun h => hkeep fun f hf => h f (hsub f hf), ?_⟩
    -- events from memory are only added if all events of the files are in the list
    have hpos : 0 < l.wrapped.events + m ↔ 0 < l.wrapped.events := by
      refine ⟨fun h => ?_, fun h => by omega⟩
      by_cases h0 : 0 < m
      · rw [hall (hmore h0), hes]
        exact Nat.succ_pos _
      · omega
    rw [hpos, hfit, headFits_files hs hfiles, hs.storedLines, hes, List.map_cons, firstFits_cons]
  · obtain ⟨old', w', hget, hs', hevents, hsub⟩ := hs.getEventsForUpload_none hfiles c z
    obtain ⟨e, es, hes⟩ := List.exists_cons_of_ne_nil (hne.resolve_left hfiles)
    obtain ⟨w'', hw'', hget'⟩ := getEventsForUpload_memory hget
    obtain ⟨m, hm, w₁, hsend, hfit⟩ := sendEvents_memory h hget' hes hc hz w
    have hhead : 0 < 0 + m ↔ b.HeadFits z := by
      rw [Nat.zero_add, hfit, headFits_memory hs hfiles, MemoryEventBatch.storedLines, hes,
        List.map_cons, firstFits_cons]
    rcases List.mem_pair.mp hw'' with rfl | rfl
    · exact ⟨0, Nat.zero_le _, m, hm, _, w₁, old', new, hsend, hs', by rw [hevents, List.drop_zero],
        fun h f hf => h f (hsub f hf), hhead⟩
    · exact ⟨0, Nat.zero_le _, m, hm, _, w₁, old, new, hsend, hs, by rw [List.drop_zero],
        fun h => h, hhead⟩

/-- The buffered batch makes progress if and only if the first event that it can reach fits. -/
theorem progress_iff (h : U.Answers200) (hs : b.wrapped.Stores old new) (hc : 1 ≤ c) (hz : 1 ≤ z)
    (w : ω) : U.Progress overFiles storedLines c z b w ↔ b.HeadFits z := by
  by_cases hne : (¬b.wrapped.Stuck ∧ eventsOf old new ≠ []) ∨ b.mem.items ≠ []
  · obtain ⟨n, hn, m, hm, wrapped', w', old', new', hsend, hs', hevents, _, hfit⟩ :=
      sendEvents_spec h hs hc hz hne w
    rw [EventUploader.progress_iff_of_success hsend (n := n + m), hfit]
    simp only [storedLines, MemoryEventBatch.storedLines, List.length_append, List.length_map,
      List.length_drop, hs.length_storedLines, hs'.length_storedLines, hevents]
    omega
  · rw [not_or, not_not] at hne
    obtain ⟨old', w', hget, _⟩ := hs.getEventsForUpload_none hne.1 c z
    obtain ⟨w'', _, hget'⟩ := getEventsForUpload_memory hget
    apply iff_of_false (sendEvents_null hget' hne.2 w _)
    intro hhead
    have hfirst := (headFits_memory hs hne.1 z).mp hhead
    simp [FirstFits, MemoryEventBatch.storedLines, hne.2] at hfirst

end BufferedEventBatch

end McpeLauncher.Telemetry
