import McpeLauncher.Telemetry.EventBatch

/-!
# The in-memory batch

`cll::MemoryEventBatch`: a vector of at most `limit` events, acknowledged by their number.
-/

namespace McpeLauncher.Telemetry
open ByteLines

structure MemoryEventBatch where
  items : List Event
  limit : Nat
  deriving DecidableEq

namespace MemoryEventBatch

def addEvent (b : MemoryEventBatch) (rawData : Event) : Bool × MemoryEventBatch :=
  if b.items.length ≥ b.limit then (false, b)
  else (true, { b with items := b.items ++ [rawData] })

def hasEvents (b : MemoryEventBatch) : Bool := !b.items.isEmpty

/-- The loop of `getEventsForUpload` over the items, with the data and the number of events so
far. It stops before an event that does not fit, so also before the first one. -/
def uploadLoop (maxCount maxSize : Nat) : List Event → (ret : Bytes) → (count : Nat) → Bytes × Nat
  | [], ret, count => (ret, count)
  | i :: items, ret, count =>
    let ns := ret.length + i.dump.length + 2
    if ns > maxSize then (ret, count)
    else if count + 1 = maxCount then (ret ++ i.record, count + 1)
    else uploadLoop maxCount maxSize items (ret ++ i.record) (count + 1)

def getEventsForUpload (b : MemoryEventBatch) (maxCount maxSize : Nat) :
    Option VectorBatchedEventList :=
  if maxCount = 0 ∨ maxSize = 0 ∨ b.items = [] then none
  else
    let (ret, count) := uploadLoop maxCount maxSize b.items [] 0
    some { data := ret, events := count, moreEvents := count < b.items.length }

/-- Erasing more items than there are is undefined. -/
def onEventsUploaded (b : MemoryEventBatch) (events : VectorBatchedEventList) :
    Option MemoryEventBatch :=
  if events.events ≤ b.items.length then some { b with items := b.items.drop events.events }
  else none

def transferAllEvents (b : MemoryEventBatch) : List Event × MemoryEventBatch :=
  (b.items, { b with items := [] })

/-- The batch as an `EventBatch`. -/
def batch : EventBatch MemoryEventBatch VectorBatchedEventList where
  addEvent := addEvent
  getEventsForUpload b maxCount maxSize := some (b.getEventsForUpload maxCount maxSize, b)
  onEventsUploaded := onEventsUploaded
  hasEvents := hasEvents
  getData l := some l.data
  getEventCount l := some l.events
  hasMoreEvents l := some l.moreEvents

/-! ## What an upload list holds -/

theorem uploadLoop_spec (maxCount maxSize : Nat) (items : List Event) (ret : Bytes) (count : Nat) :
    ∃ k ≤ items.length, uploadLoop maxCount maxSize items ret count =
      (ret ++ records (items.take k), count + k) := by
  induction items generalizing ret count with
  | nil => exact ⟨0, by simp, by simp [uploadLoop]⟩
  | cons i items ih =>
    simp only [uploadLoop]
    split
    · exact ⟨0, by simp, by simp⟩
    · split
      · exact ⟨1, by simp, by simp⟩
      · obtain ⟨k, hk, heq⟩ := ih (ret ++ i.record) (count + 1)
        refine ⟨k + 1, by simpa using hk, ?_⟩
        rw [heq]
        simp only [List.take_succ_cons, records_cons, List.append_assoc, Prod.mk.injEq, true_and]
        omega

/-- The loop stops at the first event that would be too many or too large, and not before. -/
theorem uploadLoop_longest {maxCount maxSize count : Nat} (items : List Event) (ret : Bytes)
    (hcount : count < maxCount) (hret : ret.length ≤ maxSize) :
    ∃ k, LongestPrefix items (maxCount - count) (maxSize - ret.length) k ∧
      uploadLoop maxCount maxSize items ret count =
        (ret ++ records (items.take k), count + k) := by
  induction items generalizing ret count with
  | nil => exact ⟨0, .nil _ _, by simp [uploadLoop]⟩
  | cons i items ih =>
    simp only [uploadLoop]
    split
    · next hlarge =>
      exact ⟨0, .full (by rw [Event.record_length]; omega) _ _, by simp⟩
    · next hfits =>
      have hlen : (ret ++ i.record).length = ret.length + i.record.length := List.length_append
      have hsize : maxSize - ret.length =
          i.record.length + (maxSize - (ret ++ i.record).length) := by
        rw [hlen, Event.record_length]
        omega
      rw [hsize]
      split
      · next hlast =>
        obtain rfl : maxCount = count + 1 := hlast.symm
        rw [Nat.add_sub_cancel_left]
        exact ⟨1, LongestPrefix.cons (.zero _ _) i, by simp⟩
      · next hmore =>
        rw [Event.record_length] at hlen
        obtain ⟨k, hk, heq⟩ := ih (ret ++ i.record) (show count + 1 < maxCount by omega) (by omega)
        refine ⟨k + 1, ?_, ?_⟩
        · rw [show maxCount - count = maxCount - (count + 1) + 1 by omega]
          exact hk.cons i
        · rw [heq, List.take_succ_cons, records_cons, List.append_assoc, Nat.add_assoc,
            Nat.add_comm 1 k]

/-- The loop takes the first event exactly if that fits. -/
theorem uploadLoop_count_pos (maxCount maxSize : Nat) (i : Event) (items : List Event) :
    0 < (uploadLoop maxCount maxSize (i :: items) [] 0).2 ↔ i.record.length ≤ maxSize := by
  simp only [uploadLoop, List.length_nil, Nat.zero_add, Event.record_length]
  split
  · simp; omega
  · next h =>
    refine iff_of_true ?_ (by omega)
    split
    · simp
    · obtain ⟨k, _, heq⟩ := uploadLoop_spec maxCount maxSize items ([] ++ i.record) 1
      rw [heq]
      exact Nat.lt_add_right k Nat.one_pos

theorem getEventsForUpload_eq_none {b : MemoryEventBatch} :
    b.getEventsForUpload maxCount maxSize = none ↔ maxCount = 0 ∨ maxSize = 0 ∨ b.items = [] := by
  unfold getEventsForUpload
  split <;> simp_all

/-- A list handed out holds the first items, and says whether there are more. -/
theorem getEventsForUpload_spec {b : MemoryEventBatch}
    (h : b.getEventsForUpload maxCount maxSize = some l) :
    l.events ≤ b.items.length ∧ l.data = records (b.items.take l.events) ∧
      l.moreEvents = decide (l.events < b.items.length) := by
  unfold getEventsForUpload at h
  split at h
  · cases h
  · obtain ⟨k, hk, heq⟩ := uploadLoop_spec maxCount maxSize b.items [] 0
    simp only [heq, Nat.zero_add, List.nil_append, Option.some.injEq] at h
    subst h
    exact ⟨hk, rfl, rfl⟩

/-- It holds as many of them as the limits allow. -/
theorem getEventsForUpload_longest {b : MemoryEventBatch} (hb : b.items ≠ []) (hc : 1 ≤ maxCount)
    (hz : 1 ≤ maxSize) : ∃ k, LongestPrefix b.items maxCount maxSize k ∧
      b.getEventsForUpload maxCount maxSize =
        some ⟨records (b.items.take k), k, decide (k < b.items.length)⟩ := by
  obtain ⟨k, hk, heq⟩ := uploadLoop_longest b.items [] hc (Nat.zero_le maxSize)
  rw [List.nil_append, Nat.zero_add] at heq
  refine ⟨k, hk, ?_⟩
  rw [getEventsForUpload, if_neg (by simp [hb]; omega), heq]

/-- With room for one event, the list is non-null, and it is empty exactly if the first item is
too large. -/
theorem getEventsForUpload_cons {b : MemoryEventBatch} (hb : b.items = i :: rest)
    (hc : 1 ≤ maxCount) (hz : 1 ≤ maxSize) :
    ∃ l, b.getEventsForUpload maxCount maxSize = some l ∧
      (0 < l.events ↔ i.record.length ≤ maxSize) := by
  refine ⟨_, by rw [getEventsForUpload, if_neg (by simp [hb]; omega)], ?_⟩
  rw [hb]
  exact uploadLoop_count_pos maxCount maxSize i rest

/-- The batch is a FIFO queue. -/
def fifo : batch.Fifo where
  Valid _ := True
  stored := items
  InFlight b l := l.events ≤ b.items.length ∧ l.data = records (b.items.take l.events)
  addEvent := by
    intro b e _
    change _ ∧ (b.addEvent e).2.items = b.items ++ (if (b.addEvent e).1 then [e] else []) ∧ _
    simp only [batch, MemoryEventBatch.addEvent]
    split
    · exact ⟨trivial, by simp, fun _ hl => hl⟩
    · refine ⟨trivial, rfl, fun l hl => ⟨?_, ?_⟩⟩
      · simpa using Nat.le_succ_of_le hl.1
      · rw [hl.2, List.take_append_of_le_length hl.1]
  getEventsForUpload := by
    intro b c z _
    refine ⟨_, _, rfl, trivial, rfl, fun l hl => ?_⟩
    obtain ⟨hle, hdata, hmore⟩ := getEventsForUpload_spec hl
    refine ⟨⟨hle, hdata⟩, l.moreEvents, rfl, fun hm => ?_⟩
    rw [hm] at hmore
    simp only [Bool.false_eq, decide_eq_false_iff_not] at hmore
    exact congrArg some (by omega)
  contents := fun _ hl => ⟨_, hl.1, rfl, congrArg some hl.2⟩
  onEventsUploaded := by
    intro b l n _ hl hn
    cases hn
    refine ⟨{ b with items := b.items.drop l.events }, ?_, trivial, rfl⟩
    change b.onEventsUploaded l = _
    rw [MemoryEventBatch.onEventsUploaded, if_pos hl.1]
  hasEvents := by
    intro b _ h
    simpa [batch, MemoryEventBatch.hasEvents] using h

end MemoryEventBatch

end McpeLauncher.Telemetry
