import McpeLauncher.Lib.Lines

/-!
# Event batches

The interface `cll::EventBatch` with the lists it hands out, and what a well-behaved batch is:
`EventBatch.Fifo`, a queue whose readers take a front part of the stored events and acknowledge
it later, with additions in between.

A result `none` of an operation stands for a call without defined behaviour (an erase past the end
of a vector, a null list that is looked into).
-/

namespace McpeLauncher.Telemetry
open ByteLines

/-- A JSON event, by its compact serialisation `dump()`: one line of text, since control
characters inside strings are escaped. -/
structure Event where
  dump : Bytes
  oneLine : newline ∉ dump
  deriving DecidableEq

/-- `dump() + "\r\n"`, the form in which an event is uploaded and written to a file. -/
def Event.record (e : Event) : Bytes := e.dump ++ [13, newline]

def records (es : List Event) : Bytes := (es.map Event.record).flatten

/-- `VectorBatchedEventList`. -/
structure VectorBatchedEventList where
  data : Bytes
  events : Nat
  moreEvents : Bool
  deriving DecidableEq

/-- The virtual functions of `EventBatch` and of the `BatchedEventList` class `ℓ` it hands out. -/
structure EventBatch (σ ℓ : Type) where
  addEvent : σ → Event → Bool × σ
  getEventsForUpload : σ → (maxCount maxSize : Nat) → Option (Option ℓ × σ)
  onEventsUploaded : σ → ℓ → Option σ
  hasEvents : σ → Bool
  getData : ℓ → Option Bytes
  getEventCount : ℓ → Option Nat
  hasMoreEvents : ℓ → Option Bool

def SIZE_MAX : Nat := UInt64.size - 1

/-- Subtraction of `size_t` values. -/
def sizeSub (a b : Nat) : Nat := (a + UInt64.size - b) % UInt64.size

/-- A batch is a FIFO queue: additions go to the end or are refused, a list handed out holds the
first events of the queue and keeps doing so while events are added, and acknowledging it removes
exactly them. A batch that stores an event has events, and a list without more events is complete.

The first three fields choose the states in question, their contents, and which lists are still
waiting for their acknowledgement. -/
structure EventBatch.Fifo (B : EventBatch σ ℓ) where
  Valid : σ → Prop
  stored : σ → List Event
  InFlight : σ → ℓ → Prop
  addEvent : Valid s → Valid (B.addEvent s e).2 ∧
    stored (B.addEvent s e).2 = stored s ++ (if (B.addEvent s e).1 then [e] else []) ∧
    ∀ l, InFlight s l → InFlight (B.addEvent s e).2 l
  getEventsForUpload : Valid s → ∃ r s', B.getEventsForUpload s maxCount maxSize = some (r, s') ∧
    Valid s' ∧ stored s' = stored s ∧ ∀ l, r = some l → InFlight s' l ∧
      ∃ more, B.hasMoreEvents l = some more ∧
        (more = false → B.getEventCount l = some (stored s).length)
  contents : Valid s → InFlight s l → ∃ n ≤ (stored s).length,
    B.getEventCount l = some n ∧ B.getData l = some (records ((stored s).take n))
  onEventsUploaded : Valid s → InFlight s l → B.getEventCount l = some n →
    ∃ s', B.onEventsUploaded s l = some s' ∧ Valid s' ∧ stored s' = (stored s).drop n
  hasEvents : Valid s → B.hasEvents s = false → stored s = []

theorem EventBatch.Fifo.valid_ack {B : EventBatch σ ℓ} (F : B.Fifo) (hs : F.Valid s)
    (hl : F.InFlight s l) (h : B.onEventsUploaded s l = some s') : F.Valid s' := by
  obtain ⟨n, _, hcount, _⟩ := F.contents hs hl
  obtain ⟨s₁, h₁, hv, _⟩ := F.onEventsUploaded hs hl hcount
  rw [h, Option.some.injEq] at h₁
  exact h₁ ▸ hv

/-! ## Records -/

theorem Event.record_isLine (e : Event) : IsLine e.record :=
  ⟨e.dump ++ [13], by simpa using ⟨e.oneLine, by decide⟩, by simp [record]⟩

@[simp] theorem Event.record_length (e : Event) : e.record.length = e.dump.length + 2 := by
  simp [record]

theorem Event.record_injective : Function.Injective Event.record := by
  intro a b h
  have := List.append_cancel_right h
  cases a; cases b
  simpa using this

@[simp] theorem records_nil : records [] = [] := rfl

@[simp] theorem records_cons (e : Event) (es : List Event) :
    records (e :: es) = e.record ++ records es := rfl

@[simp] theorem records_append (es es' : List Event) :
    records (es ++ es') = records es ++ records es' := by
  simp [records]

theorem isLine_of_mem_records {es : List Event} (h : l ∈ es.map Event.record) : IsLine l := by
  obtain ⟨e, _, rfl⟩ := List.mem_map.mp h
  exact e.record_isLine

/-- The longest front part of the events that has at most `maxCount` of them, and at most `maxSize`
bytes as records, consists of `k` events. -/
structure LongestPrefix (es : List Event) (maxCount maxSize k : Nat) : Prop where
  le : k ≤ es.length
  count : k ≤ maxCount
  size : (records (es.take k)).length ≤ maxSize
  longest : ∀ j ≤ es.length, j ≤ maxCount → (records (es.take j)).length ≤ maxSize → j ≤ k

theorem LongestPrefix.unique (h : LongestPrefix es c z k) (h' : LongestPrefix es c z k') : k = k' :=
  Nat.le_antisymm (h'.longest k h.le h.count h.size) (h.longest k' h'.le h'.count h'.size)

theorem LongestPrefix.nil (c z : Nat) : LongestPrefix [] c z 0 :=
  ⟨Nat.le_refl _, Nat.zero_le _, Nat.zero_le _, fun _ hj _ _ => hj⟩

theorem LongestPrefix.zero (es : List Event) (z : Nat) : LongestPrefix es 0 z 0 :=
  ⟨Nat.zero_le _, Nat.le_refl _, Nat.zero_le _, fun _ _ hj _ => hj⟩

/-- There is no room for the first event. -/
theorem LongestPrefix.full {e : Event} (h : z < e.record.length) (es : List Event) (c : Nat) :
    LongestPrefix (e :: es) c z 0 := by
  refine ⟨Nat.zero_le _, Nat.zero_le _, Nat.zero_le _, fun j _ _ hsize => ?_⟩
  cases j with
  | zero => exact Nat.le_refl _
  | succ j =>
    rw [List.take_succ_cons, records_cons, List.length_append] at hsize
    omega

theorem LongestPrefix.cons (h : LongestPrefix es c z k) (e : Event) :
    LongestPrefix (e :: es) (c + 1) (e.record.length + z) (k + 1) := by
  refine ⟨Nat.succ_le_succ h.le, Nat.succ_le_succ h.count, ?_, fun j hj hcount hsize => ?_⟩
  · rw [List.take_succ_cons, records_cons, List.length_append]
    exact Nat.add_le_add_left h.size _
  · cases j with
    | zero => exact Nat.zero_le _
    | succ j =>
      rw [List.take_succ_cons, records_cons, List.length_append] at hsize
      exact Nat.succ_le_succ (h.longest j (Nat.le_of_succ_le_succ hj)
        (Nat.le_of_succ_le_succ hcount) (Nat.le_of_add_le_add_left hsize))

/-- Cutting the records of some events at the newlines gives the records back. -/
theorem lines_records (es : List Event) : lines (records es) = es.map Event.record :=
  lines_flatten fun _ => isLine_of_mem_records

end McpeLauncher.Telemetry
