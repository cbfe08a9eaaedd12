import McpeLauncher.Lib.Runs
import McpeLauncher.Telemetry.MemoryEventBatch

/-!
# The buffered batch

`cll::BufferedEventBatch` keeps new events in memory in front of a wrapped batch and forwards all
of them when the memory is full or on `flush`. A list handed out remembers which of the two parts
its events came from, and is acknowledged in both. The lock is not held between the two calls, so
a flush may come in between.

`BufferedRun` is the batch together with one uploader and the history of the run.
-/

namespace McpeLauncher.Telemetry
open ByteLines

/-- The classes below `BufferedEventList`, by their `Type`: a `WrapperBufferedEventList` of type
`Wrapped` or `Memory` (whose list may be null) and a `MergedBufferedEventList`. -/
inductive BufferedEventList (ℓ : Type)
  | wrapped (wrapped : ℓ) (hasMemoryEvents : Bool)
  | memory (wrapped : Option VectorBatchedEventList)
  | merged (wrapped : ℓ) (mem : VectorBatchedEventList)

structure BufferedEventBatch (σ : Type) where
  wrapped : σ
  mem : MemoryEventBatch

namespace BufferedEventList
variable (B : EventBatch σ ℓ)

def getData : BufferedEventList ℓ → Option Bytes
  | .wrapped l _ => B.getData l
  | .memory l => l.map (·.data)
  | .merged l m => (B.getData l).map (· ++ m.data)

def getEventCount : BufferedEventList ℓ → Option Nat
  | .wrapped l _ => B.getEventCount l
  | .memory l => l.map (·.events)
  | .merged l m => (B.getEventCount l).map (· + m.events)

def hasMoreEvents : BufferedEventList ℓ → Option Bool
  | .wrapped l hasMemoryEvents => if hasMemoryEvents then some true else B.hasMoreEvents l
  | .memory l => l.map (·.moreEvents)
  | .merged l m => (B.hasMoreEvents l).map (· || m.moreEvents)

/-- The list that came from the wrapped batch. -/
def wrappedPart : BufferedEventList ℓ → Option ℓ
  | .wrapped l _ | .merged l _ => some l
  | .memory _ => none

end BufferedEventList

namespace BufferedEventBatch
variable (B : EventBatch σ ℓ)

/-- `flushInternal`: the wrapped batch may refuse an event, which is then lost with a warning. -/
def flushInternal (b : BufferedEventBatch σ) : BufferedEventBatch σ :=
  let (items, mem) := b.mem.transferAllEvents
  { wrapped := items.foldl (fun w item => (B.addEvent w item).2) b.wrapped, mem }

def addEvent (b : BufferedEventBatch σ) (rawData : Event) : Bool × BufferedEventBatch σ :=
  if (b.mem.addEvent rawData).1 then (true, { b with mem := (b.mem.addEvent rawData).2 })
  else
    let b := b.flushInternal B
    ((b.mem.addEvent rawData).1, { b with mem := (b.mem.addEvent rawData).2 })

/-- The part of `getEventsForUpload` for which the wrapped batch gave no list: the result is a
list object even if the memory batch has none to give. -/
def getMemoryEvents (b : BufferedEventBatch σ) (maxCount maxSize : Nat) :
    Option (Option (BufferedEventList ℓ) × BufferedEventBatch σ) :=
  some (some (.memory (b.mem.getEventsForUpload maxCount maxSize)), b)

/-- The memory events that `getEventsForUpload` adds to a list `ret` of the wrapped batch: none if
that batch has more events than `ret`. -/
def getMoreEvents (b : BufferedEventBatch σ) (ret : ℓ) (maxCount maxSize : Nat) :
    Option (Option VectorBatchedEventList) := do
  let more ← B.hasMoreEvents ret
  if !more && b.mem.hasEvents then
    let count ← B.getEventCount ret
    let data ← B.getData ret
    return b.mem.getEventsForUpload (sizeSub maxCount count) (sizeSub maxSize data.length)
  else return none

def getEventsForUpload (b : BufferedEventBatch σ) (maxCount maxSize : Nat) :
    Option (Option (BufferedEventList ℓ) × BufferedEventBatch σ) :=
  if B.hasEvents b.wrapped then do
    let (ret, w) ← B.getEventsForUpload b.wrapped maxCount maxSize
    let b := { b with wrapped := w }
    match ret with
    | none => b.getMemoryEvents maxCount maxSize
    | some ret =>
      match ← b.getMoreEvents B ret maxCount maxSize with
      | some retMem => some (some (.merged ret retMem), b)
      | none => some (some (.wrapped ret b.mem.hasEvents), b)
  else b.getMemoryEvents maxCount maxSize

def onEventsUploaded (b : BufferedEventBatch σ) :
    BufferedEventList ℓ → Option (BufferedEventBatch σ)
  | .wrapped l _ => do return { b with wrapped := ← B.onEventsUploaded b.wrapped l }
  | .memory none => none
  | .memory (some l) => do return { b with mem := ← b.mem.onEventsUploaded l }
  | .merged l m => do
    let wrapped ← B.onEventsUploaded b.wrapped l
    let mem ← b.mem.onEventsUploaded m
    return { wrapped, mem }

def hasEvents (b : BufferedEventBatch σ) : Bool := b.mem.hasEvents || B.hasEvents b.wrapped

/-- The batch as an `EventBatch`. -/
def batch : EventBatch (BufferedEventBatch σ) (BufferedEventList ℓ) where
  addEvent := addEvent B
  getEventsForUpload := getEventsForUpload B
  onEventsUploaded := onEventsUploaded B
  hasEvents := hasEvents B
  getData := BufferedEventList.getData B
  getEventCount := BufferedEventList.getEventCount B
  hasMoreEvents := BufferedEventList.hasMoreEvents B

end BufferedEventBatch

/-! ## Runs with one uploader -/

/-- The calls of a run. The lock makes each of them atomic; `uploaded` and `failed` end the upload
of the list handed out last. -/
inductive BufferedCall
  | addEvent (rawData : Event)
  | flush
  | getEventsForUpload (maxCount maxSize : Nat)
  | uploaded
  | failed

/-- The batch, the list being uploaded, the events accepted so far and the data of the lists
acknowledged so far. -/
structure BufferedRun (σ ℓ : Type) where
  batch : BufferedEventBatch σ
  inFlight : Option (BufferedEventList ℓ)
  accepted : List Event
  acked : Bytes

namespace BufferedRun
variable (B : EventBatch σ ℓ)

def step (s : BufferedRun σ ℓ) : BufferedCall → Option (BufferedRun σ ℓ)
  | .addEvent e =>
    let added := s.batch.addEvent B e
    some { s with batch := added.2, accepted := s.accepted ++ if added.1 then [e] else [] }
  | .flush => some { s with batch := s.batch.flushInternal B }
  | .getEventsForUpload maxCount maxSize => do
    let (inFlight, batch) ← s.batch.getEventsForUpload B maxCount maxSize
    return { s with batch, inFlight }
  | .uploaded =>
    match s.inFlight with
    | none => some s
    | some l => do
      let data ← l.getData B
      let batch ← s.batch.onEventsUploaded B l
      return { s with batch, inFlight := none, acked := s.acked ++ data }
  | .failed => some { s with inFlight := none }

variable {B}

/-- A new buffer in front of a wrapped batch, whose contents count as accepted before. -/
def init (F : B.Fifo) (w : σ) (bufferedItemCount : Nat) : BufferedRun σ ℓ where
  batch := { wrapped := w, mem := { items := [], limit := bufferedItemCount } }
  inFlight := none
  accepted := F.stored w
  acked := []

def stored (F : B.Fifo) (s : BufferedRun σ ℓ) : List Event :=
  F.stored s.batch.wrapped ++ s.batch.mem.items

/-- Nothing is lost, duplicated or reordered: the events of the acknowledged lists and then those
still stored are the accepted ones. -/
def Lossless (F : B.Fifo) (s : BufferedRun σ ℓ) : Prop :=
  lines s.acked ++ (s.stored F).map Event.record = s.accepted.map Event.record

variable (B) in
/-- The wrapped batch accepts these events one after the other. -/
def AcceptsAll : σ → List Event → Prop
  | _, [] => True
  | w, e :: es => (B.addEvent w e).1 = true ∧ AcceptsAll (B.addEvent w e).2 es

/-- The condition for acknowledging the list in flight: it is no null list, and if it has events
from memory, then the wrapped batch stores exactly the events that the list took from there. After
a flush that moved an event, or when the wrapped batch gave no list although it stores events,
that is not so. -/
def UploadedOk (F : B.Fifo) (s : BufferedRun σ ℓ) : Prop :=
  match s.inFlight with
  | none | some (.wrapped _ _) => True
  | some (.memory none) => False
  | some (.memory (some m)) => m.events = 0 ∨ F.stored s.batch.wrapped = []
  | some (.merged l m) =>
    m.events = 0 ∨ B.getEventCount l = some (F.stored s.batch.wrapped).length

/-- The condition on a call: forwarded events are accepted, and acknowledgements are in order. -/
def CallOk (F : B.Fifo) (s : BufferedRun σ ℓ) : BufferedCall → Prop
  | .addEvent _ => s.batch.mem.items.length ≥ s.batch.mem.limit →
      AcceptsAll B s.batch.wrapped s.batch.mem.items
  | .flush => AcceptsAll B s.batch.wrapped s.batch.mem.items
  | .uploaded => s.UploadedOk F
  | .getEventsForUpload _ _ | .failed => True

/-! ## The invariant of a run -/

/-- What holds of the list in flight. Its events from memory are the first ones there as long as
the wrapped batch stores no more than the list took from it. -/
def InFlightOk (F : B.Fifo) (b : BufferedEventBatch σ) : Option (BufferedEventList ℓ) → Prop
  | none | some (.memory none) => True
  | some (.wrapped l _) => F.InFlight b.wrapped l
  | some (.memory (some m)) => (m.events = 0 → m.data = []) ∧
      (F.stored b.wrapped = [] → MemoryEventBatch.fifo.InFlight b.mem m)
  | some (.merged l m) => F.InFlight b.wrapped l ∧ (m.events = 0 → m.data = []) ∧
      (B.getEventCount l = some (F.stored b.wrapped).length →
        MemoryEventBatch.fifo.InFlight b.mem m)

structure Inv (F : B.Fifo) (s : BufferedRun σ ℓ) : Prop where
  valid : F.Valid s.batch.wrapped
  balanced : ∃ done, s.acked = records done ∧ done ++ s.stored F = s.accepted
  inFlight : InFlightOk F s.batch s.inFlight

variable {F : B.Fifo}

theorem Inv.nothingLost {s : BufferedRun σ ℓ} (h : Inv F s) : s.Lossless F := by
  obtain ⟨done, hacked, heq⟩ := h.balanced
  rw [Lossless, hacked, lines_records, ← heq, List.map_append]

theorem inv_init (w : σ) (hw : F.Valid w) (limit : Nat) : Inv F (init F w limit) where
  valid := hw
  balanced := ⟨[], rfl, by simp [init, stored]⟩
  inFlight := trivial

/-- Forwarding events keeps the wrapped batch in order, whether it accepts them or not. -/
theorem forward_valid {w : σ} (hw : F.Valid w) (es : List Event) :
    let w' := es.foldl (fun w item => (B.addEvent w item).2) w
    F.Valid w' ∧ ∀ l, F.InFlight w l → F.InFlight w' l := by
  induction es generalizing w with
  | nil => exact ⟨hw, fun _ hl => hl⟩
  | cons e es ih =>
    obtain ⟨hv, _, hl⟩ := F.addEvent (e := e) hw
    obtain ⟨hv', hl'⟩ := ih hv
    exact ⟨hv', fun l hin => hl' l (hl l hin)⟩

/-- Forwarding accepted events appends them to the wrapped batch. -/
theorem forward_stored {w : σ} (hw : F.Valid w) {es : List Event} (h : AcceptsAll B w es) :
    F.stored (es.foldl (fun w item => (B.addEvent w item).2) w) = F.stored w ++ es := by
  induction es generalizing w with
  | nil => simp
  | cons e es ih =>
    obtain ⟨hv, hs, _⟩ := F.addEvent (e := e) hw
    rw [List.foldl_cons, ih hv h.2, hs, h.1]
    simp

/-- A list in flight survives additions to the memory batch. -/
theorem InFlightOk.add_mem {b : BufferedEventBatch σ} (h : InFlightOk F b l) (e : Event) :
    InFlightOk F { b with mem := (b.mem.addEvent e).2 } l := by
  have hkeep := (MemoryEventBatch.fifo.addEvent (s := b.mem) (e := e) trivial).2.2
  match l, h with
  | none, _ => trivial
  | some (.memory none), _ => trivial
  | some (.wrapped l _), h => exact h
  | some (.memory (some m)), h => exact ⟨h.1, fun hs => hkeep m (h.2 hs)⟩
  | some (.merged l m), h => exact ⟨h.1, h.2.1, fun hs => hkeep m (h.2.2 hs)⟩

/-- A flush that moves events makes the wrapped batch store more than any list took from it, so
the memory part of a list in flight need no longer be there. -/
theorem InFlightOk.flush {b : BufferedEventBatch σ} (hw : F.Valid b.wrapped)
    (h : InFlightOk F b l) (hacc : AcceptsAll B b.wrapped b.mem.items) :
    InFlightOk F (b.flushInternal B) l := by
  have hs := forward_stored hw hacc
  have hkeep := (forward_valid hw b.mem.items).2
  have hempty : b.mem.items = [] → (b.flushInternal B).mem = b.mem := by
    intro hnil
    simp [BufferedEventBatch.flushInternal, MemoryEventBatch.transferAllEvents, ← hnil]
  match l, h with
  | none, _ => trivial
  | some (.memory none), _ => trivial
  | some (.wrapped l _), h => exact hkeep l h
  | some (.memory (some m)), h =>
    refine ⟨h.1, fun hnil => ?_⟩
    have hboth := List.append_eq_nil_iff.mp (hs.symm.trans hnil)
    rw [hempty hboth.2]
    exact h.2 hboth.1
  | some (.merged l m), h =>
    refine ⟨hkeep l h.1, h.2.1, fun hcount => ?_⟩
    obtain ⟨n, hn, hcount', _⟩ := F.contents hw h.1
    have hlen : (F.stored (b.flushInternal B).wrapped).length =
        (F.stored b.wrapped).length + b.mem.items.length :=
      (congrArg List.length hs).trans List.length_append
    rw [hcount', hlen, Option.some.injEq] at hcount
    have hnil : b.mem.items = [] := List.eq_nil_of_length_eq_zero (by omega)
    rw [hempty hnil]
    exact h.2.2 (by rw [hcount', Option.some.injEq]; omega)

theorem stored_flush {b : BufferedEventBatch σ} (hw : F.Valid b.wrapped)
    (hacc : AcceptsAll B b.wrapped b.mem.items) :
    F.stored (b.flushInternal B).wrapped ++ (b.flushInternal B).mem.items =
      F.stored b.wrapped ++ b.mem.items := by
  have := forward_stored hw hacc
  simpa [BufferedEventBatch.flushInternal, MemoryEventBatch.transferAllEvents] using this

/-- Adding an event to the memory batch keeps the run balanced. -/
theorem Inv.add_mem {s : BufferedRun σ ℓ} (h : Inv F s) (e : Event) :
    Inv F { s with batch := { s.batch with mem := (s.batch.mem.addEvent e).2 }
                   accepted := s.accepted ++ if (s.batch.mem.addEvent e).1 then [e] else [] } := by
  obtain ⟨done, hacked, heq⟩ := h.balanced
  have hitems : (s.batch.mem.addEvent e).2.items =
      s.batch.mem.items ++ if (s.batch.mem.addEvent e).1 then [e] else [] :=
    (MemoryEventBatch.fifo.addEvent trivial).2.1
  refine ⟨h.valid, ⟨done, hacked, ?_⟩, h.inFlight.add_mem e⟩
  rw [← heq]
  simp [stored, hitems]

theorem Inv.flush {s : BufferedRun σ ℓ} (h : Inv F s)
    (hacc : AcceptsAll B s.batch.wrapped s.batch.mem.items) :
    Inv F { s with batch := s.batch.flushInternal B } := by
  obtain ⟨done, hacked, heq⟩ := h.balanced
  exact ⟨(forward_valid h.valid s.batch.mem.items).1,
    ⟨done, hacked, (congrArg (done ++ ·) (stored_flush h.valid hacc)).trans heq⟩,
    h.inFlight.flush h.valid hacc⟩

theorem step_addEvent {s : BufferedRun σ ℓ} (h : Inv F s) (hok : s.CallOk F (.addEvent e)) :
    ∃ s', s.step B (.addEvent e) = some s' ∧ Inv F s' := by
  refine ⟨_, rfl, ?_⟩
  simp only [BufferedEventBatch.addEvent]
  split
  · next hadd => simpa [hadd] using h.add_mem e
  · next hadd =>
    have hfull : s.batch.mem.items.length ≥ s.batch.mem.limit := by
      by_contra hn
      simp [MemoryEventBatch.addEvent, hn] at hadd
    exact (h.flush (hok hfull)).add_mem e

/-- The list from memory that `getEventsForUpload` gives is one that the memory batch has in
flight. -/
theorem inFlight_mem {mem : MemoryEventBatch} (h : mem.getEventsForUpload c z = some m) :
    (m.events = 0 → m.data = []) ∧ MemoryEventBatch.fifo.InFlight mem m := by
  obtain ⟨hle, hdata, _⟩ := MemoryEventBatch.getEventsForUpload_spec h
  exact ⟨fun h0 => by simp [hdata, h0], hle, hdata⟩

theorem inFlightOk_memory (F : B.Fifo) (b : BufferedEventBatch σ) (c z : Nat) :
    InFlightOk F b (some (.memory (b.mem.getEventsForUpload c z))) := by
  cases hm : b.mem.getEventsForUpload c z with
  | none => trivial
  | some m => exact ⟨(inFlight_mem hm).1, fun _ => (inFlight_mem hm).2⟩

theorem getMoreEvents_spec {b : BufferedEventBatch σ} (hw : F.Valid b.wrapped)
    (hl : F.InFlight b.wrapped l) (hmore : B.hasMoreEvents l = some more) (c z : Nat) :
    ∃ retMem, b.getMoreEvents B l c z = some retMem ∧
      ∀ m, retMem = some m → (m.events = 0 → m.data = []) ∧
        MemoryEventBatch.fifo.InFlight b.mem m := by
  obtain ⟨n, _, hcount, hdata⟩ := F.contents hw hl
  by_cases hcond : (!more && b.mem.hasEvents) = true
  · refine ⟨b.mem.getEventsForUpload (sizeSub c n)
      (sizeSub z (records ((F.stored b.wrapped).take n)).length), ?_, fun m hm => inFlight_mem hm⟩
    simp only [BufferedEventBatch.getMoreEvents, hmore, hcount, hdata,
      Option.bind_eq_bind, Option.bind_some, hcond, if_true, Option.pure_def]
  · exact ⟨none, by simp only [BufferedEventBatch.getMoreEvents, hmore, Option.bind_eq_bind,
      Option.bind_some, hcond, if_false, Option.pure_def, Bool.false_eq_true], by simp⟩

/-- What `getEventsForUpload` does to the batch, and what it hands out. -/
theorem getEventsForUpload_spec {b : BufferedEventBatch σ} (hw : F.Valid b.wrapped) (c z : Nat) :
    ∃ l w, b.getEventsForUpload B c z = some (some l, { b with wrapped := w }) ∧ F.Valid w ∧
      F.stored w = F.stored b.wrapped ∧ InFlightOk F { b with wrapped := w } (some l) := by
  unfold BufferedEventBatch.getEventsForUpload
  split
  · obtain ⟨r, w, hget, hv, hs, hin⟩ := @F.getEventsForUpload _ c z hw
    rw [hget]
    cases r with
    | none => exact ⟨_, w, rfl, hv, hs, inFlightOk_memory F { b with wrapped := w } c z⟩
    | some l =>
      obtain ⟨hl, more, hmore, _⟩ := hin l rfl
      obtain ⟨retMem, hget', hmem⟩ :=
        getMoreEvents_spec (b := { b with wrapped := w }) hv hl hmore c z
      simp only [Option.bind_eq_bind, Option.bind_some, hget']
      cases retMem with
      | some m => exact ⟨_, w, rfl, hv, hs, hl, (hmem m rfl).1, fun _ => (hmem m rfl).2⟩
      | none => exact ⟨_, w, rfl, hv, hs, hl⟩
  · exact ⟨_, b.wrapped, rfl, hw, rfl, inFlightOk_memory F b c z⟩

theorem step_getEventsForUpload {s : BufferedRun σ ℓ} (h : Inv F s) (c z : Nat) :
    ∃ s', s.step B (.getEventsForUpload c z) = some s' ∧ Inv F s' := by
  obtain ⟨l, w, hget, hv, hs, hin⟩ := getEventsForUpload_spec h.valid c z
  obtain ⟨done, hacked, heq⟩ := h.balanced
  refine ⟨{ s with batch := { s.batch with wrapped := w }, inFlight := some l },
    by simp [step, hget], hv, ⟨done, hacked, ?_⟩, hin⟩
  simpa [stored, hs] using heq

/-- Acknowledging the first stored events keeps the account balanced. -/
theorem balanced_ack {done stored es rest accepted : List Event} (h : done ++ stored = accepted)
    (hs : stored = es ++ rest) :
    ∃ done', records done ++ records es = records done' ∧ done' ++ rest = accepted :=
  ⟨done ++ es, by simp, by rw [← h, hs, List.append_assoc]⟩

/-- The part of a list that came from memory, if it is still the first one there or empty. -/
theorem mem_contents {mem : MemoryEventBatch} {m : VectorBatchedEventList}
    (hdata : m.events = 0 → m.data = [])
    (h : m.events = 0 ∨ MemoryEventBatch.fifo.InFlight mem m) :
    m.events ≤ mem.items.length ∧ m.data = records (mem.items.take m.events) := by
  rcases h with h0 | hm
  · exact ⟨by omega, by simp [h0, hdata h0]⟩
  · exact hm

theorem step_uploaded_wrapped {s : BufferedRun σ ℓ} (h : Inv F s)
    (hl : s.inFlight = some (.wrapped l more)) :
    ∃ s', s.step B .uploaded = some s' ∧ Inv F s' := by
  obtain ⟨done, hacked, heq⟩ := h.balanced
  have hin := h.inFlight
  rw [hl] at hin
  obtain ⟨n, hn, hcount, hdata⟩ := F.contents h.valid hin
  obtain ⟨w, hup, hv, hs⟩ := F.onEventsUploaded h.valid hin hcount
  refine ⟨{ s with batch := { s.batch with wrapped := w }, inFlight := none
                   acked := s.acked ++ records ((F.stored s.batch.wrapped).take n) },
    by simp [step, hl, BufferedEventList.getData, BufferedEventBatch.onEventsUploaded, hdata, hup],
    hv, ?_, trivial⟩
  rw [hacked]
  apply balanced_ack heq
  simp [stored, hs, ← List.append_assoc, List.take_append_drop]

theorem step_uploaded_memory {s : BufferedRun σ ℓ} (h : Inv F s)
    (hl : s.inFlight = some (.memory (some m)))
    (hok : m.events = 0 ∨ F.stored s.batch.wrapped = []) :
    ∃ s', s.step B .uploaded = some s' ∧ Inv F s' := by
  obtain ⟨done, hacked, heq⟩ := h.balanced
  have hin := h.inFlight
  rw [hl] at hin
  obtain ⟨hle, hdata⟩ := mem_contents hin.1 (hok.imp_right hin.2)
  refine ⟨{ s with batch := { s.batch with
                     mem := { s.batch.mem with items := s.batch.mem.items.drop m.events } }
                   inFlight := none
                   acked := s.acked ++ m.data },
    by simp [step, hl, BufferedEventList.getData, BufferedEventBatch.onEventsUploaded,
      MemoryEventBatch.onEventsUploaded, hle], h.valid, ?_, trivial⟩
  rw [hacked, hdata]
  apply balanced_ack heq
  rcases hok with h0 | hnil
  · simp [stored, h0]
  · simp [stored, hnil]

theorem step_uploaded_merged {s : BufferedRun σ ℓ} (h : Inv F s)
    (hl : s.inFlight = some (.merged l m))
    (hok : m.events = 0 ∨ B.getEventCount l = some (F.stored s.batch.wrapped).length) :
    ∃ s', s.step B .uploaded = some s' ∧ Inv F s' := by
  obtain ⟨done, hacked, heq⟩ := h.balanced
  have hin := h.inFlight
  rw [hl] at hin
  obtain ⟨n, hn, hcount, hdata⟩ := F.contents h.valid hin.1
  obtain ⟨w, hup, hv, hs⟩ := F.onEventsUploaded h.valid hin.1 hcount
  obtain ⟨hle, hmdata⟩ := mem_contents hin.2.1 (hok.imp_right hin.2.2)
  have hall : m.events = 0 ∨ n = (F.stored s.batch.wrapped).length :=
    hok.imp_right fun hall => Option.some.inj (hcount.symm.trans hall)
  refine ⟨{ s with batch := ⟨w, { s.batch.mem with items := s.batch.mem.items.drop m.events }⟩
                   inFlight := none
                   acked := s.acked ++ (records ((F.stored s.batch.wrapped).take n) ++ m.data) },
    by simp [step, hl, BufferedEventList.getData, BufferedEventBatch.onEventsUploaded,
      MemoryEventBatch.onEventsUploaded, hdata, hup, hle], hv, ?_, trivial⟩
  rw [hacked, hmdata, ← records_append]
  apply balanced_ack heq
  rcases hall with h0 | rfl
  · simp [stored, hs, h0, ← List.append_assoc, List.take_append_drop]
  · simp [stored, hs]

theorem step_uploaded {s : BufferedRun σ ℓ} (h : Inv F s) (hok : s.CallOk F .uploaded) :
    ∃ s', s.step B .uploaded = some s' ∧ Inv F s' := by
  simp only [CallOk, UploadedOk] at hok
  cases hl : s.inFlight with
  | none => exact ⟨s, by simp [step, hl], h⟩
  | some l =>
    rw [hl] at hok
    cases l with
    | wrapped l more => exact step_uploaded_wrapped h hl
    | memory m =>
      cases m with
      | none => exact hok.elim
      | some m => exact step_uploaded_memory h hl hok
    | merged l m => exact step_uploaded_merged h hl hok

/-! ## What holds in every run -/

/-- The wrapped batch is in order, and so is the part of the list in flight that came from it. A
flush at a wrong moment only concerns the memory part. -/
structure WrappedInv (F : B.Fifo) (s : BufferedRun σ ℓ) : Prop where
  valid : F.Valid s.batch.wrapped
  inFlight : ∀ l ∈ s.inFlight, ∀ lw ∈ l.wrappedPart, F.InFlight s.batch.wrapped lw

theorem WrappedInv.flush {s : BufferedRun σ ℓ} (h : WrappedInv F s) :
    WrappedInv F { s with batch := s.batch.flushInternal B } := by
  obtain ⟨hv, hkeep⟩ := forward_valid h.valid s.batch.mem.items
  exact ⟨hv, fun l hl lw hlw => hkeep lw (h.inFlight l hl lw hlw)⟩

/-- An acknowledgement that is defined leaves the wrapped batch in order. -/
theorem WrappedInv.valid_ack {s : BufferedRun σ ℓ} (h : WrappedInv F s) (hl : s.inFlight = some l)
    (hup : s.batch.onEventsUploaded B l = some b) : F.Valid b.wrapped := by
  cases l with
  | memory m =>
    cases m with
    | none => cases hup
    | some m =>
      simp only [BufferedEventBatch.onEventsUploaded, Option.bind_eq_bind, Option.pure_def,
        Option.bind_eq_some_iff, Option.some.injEq] at hup
      obtain ⟨_, _, rfl⟩ := hup
      exact h.valid
  | wrapped l _ =>
    simp only [BufferedEventBatch.onEventsUploaded, Option.bind_eq_bind, Option.pure_def,
      Option.bind_eq_some_iff, Option.some.injEq] at hup
    obtain ⟨w, hw, rfl⟩ := hup
    exact F.valid_ack h.valid (h.inFlight _ hl l rfl) hw
  | merged l m =>
    simp only [BufferedEventBatch.onEventsUploaded, Option.bind_eq_bind, Option.pure_def,
      Option.bind_eq_some_iff, Option.some.injEq] at hup
    obtain ⟨w, hw, _, _, rfl⟩ := hup
    exact F.valid_ack h.valid (h.inFlight _ hl l rfl) hw

theorem WrappedInv.step {s s' : BufferedRun σ ℓ} (h : WrappedInv F s)
    (hstep : s.step B c = some s') : WrappedInv F s' := by
  cases c with
  | addEvent e =>
    cases hstep
    simp only [BufferedEventBatch.addEvent]
    split
    · exact ⟨h.valid, h.inFlight⟩
    · exact ⟨h.flush.valid, h.flush.inFlight⟩
  | flush =>
    cases hstep
    exact h.flush
  | getEventsForUpload maxCount maxSize =>
    obtain ⟨l, w, hget, hv, _, hin⟩ := getEventsForUpload_spec h.valid maxCount maxSize
    simp only [BufferedRun.step, hget, Option.bind_eq_bind, Option.bind_some, Option.pure_def,
      Option.some.injEq] at hstep
    subst hstep
    refine ⟨hv, ?_⟩
    rintro l ⟨⟩ lw hlw
    cases l with
    | wrapped l _ => cases hlw; exact hin
    | memory l => cases hlw
    | merged l m => cases hlw; exact hin.1
  | uploaded =>
    simp only [BufferedRun.step] at hstep
    cases hl : s.inFlight with
    | none =>
      rw [hl] at hstep
      cases hstep
      exact h
    | some l =>
      simp only [hl, Option.bind_eq_bind, Option.pure_def, Option.bind_eq_some_iff,
        Option.some.injEq] at hstep
      obtain ⟨data, _, b, hup, rfl⟩ := hstep
      exact ⟨h.valid_ack hl hup, by simp⟩
  | failed =>
    cases hstep
    exact ⟨h.valid, by simp⟩

/-! ## Runs in order -/

/-- **A step that meets its condition** is defined and keeps the invariant. -/
theorem step_inv (s : BufferedRun σ ℓ) (c : BufferedCall) (h : Inv F s) (hok : s.CallOk F c) :
    ∃ s', s.step B c = some s' ∧ Inv F s' := by
  cases c with
  | addEvent e => exact step_addEvent h hok
  | flush => exact ⟨_, rfl, h.flush hok⟩
  | getEventsForUpload c z => exact step_getEventsForUpload h c z
  | uploaded => exact step_uploaded h hok
  | failed => exact ⟨_, rfl, h.valid, h.balanced, trivial⟩

/-- In every run whose calls meet their conditions, each call is defined (no erase goes past the
end of the memory batch) and nothing is lost, duplicated or reordered. -/
theorem lossless_of_callOk (F : B.Fifo) (w : σ) (hw : F.Valid w) (bufferedItemCount : Nat)
    (calls : List BufferedCall)
    (h : Runs.Meets (step B) (CallOk F) (init F w bufferedItemCount) calls) :
    ∃ s, Runs.run (step B) (init F w bufferedItemCount) calls = some s ∧ s.Lossless F := by
  obtain ⟨s, hrun, hinv⟩ := Runs.run_inv step_inv (inv_init w hw bufferedItemCount) h
  exact ⟨s, hrun, hinv.nothingLost⟩

/-- The event `{}`. -/
def emptyObject : Event := ⟨[123, 125], by decide⟩

/-- A run that meets the condition: the event is acknowledged from the memory batch it is in. -/
theorem lossless_ack :
    ∃ s, Runs.run (step MemoryEventBatch.batch) (init MemoryEventBatch.fifo ⟨[], 100⟩ 5)
      [.addEvent emptyObject, .getEventsForUpload 1 100, .uploaded] = some s ∧
      s.Lossless MemoryEventBatch.fifo := by
  apply lossless_of_callOk MemoryEventBatch.fifo ⟨[], 100⟩ trivial 5 _
  refine .cons ?_ rfl (.cons trivial rfl (.cons (.inr rfl) rfl trivial))
  intro hfull
  simp [init] at hfull

/-- A flush between reading and acknowledging an event moves the event to the wrapped batch, and
the acknowledgement erases past the end of the memory batch. -/
theorem not_lossless_flush : ¬∀ calls, ∃ s, Runs.run (step MemoryEventBatch.batch)
    (init MemoryEventBatch.fifo ⟨[], 100⟩ 5) calls = some s ∧
      s.Lossless MemoryEventBatch.fifo := by
  intro h
  obtain ⟨s, hrun, _⟩ := h [.addEvent emptyObject, .getEventsForUpload 1 100, .flush, .uploaded]
  cases hrun

end BufferedRun

end McpeLauncher.Telemetry
