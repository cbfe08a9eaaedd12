import McpeLauncher.Telemetry.EventUploader

/-!
# Null lists in buffered lists

`BufferedEventBatch::getEventsForUpload` wraps what the memory batch gives in a list of type
`Memory`, also if that is null. The functions of such a list look into the null list; those of
every other list fail only where a function of an inner list fails.
-/

namespace McpeLauncher.Telemetry
open ByteLines

/-- The list that came from the memory batch. -/
def BufferedEventList.memoryPart : BufferedEventList ℓ → Option VectorBatchedEventList
  | .wrapped _ _ => none
  | .memory l => l
  | .merged _ m => some m

/-- The functions of the list and its acknowledgement, at any later state of the batch, have defined
behaviour wherever those of the inner lists have: they never look into a null list. -/
structure BufferedEventList.WellFormed (B : EventBatch σ ℓ) (l : BufferedEventList ℓ) : Prop where
  getData : l.getData B = none → ∃ w ∈ l.wrappedPart, B.getData w = none
  getEventCount : l.getEventCount B = none → ∃ w ∈ l.wrappedPart, B.getEventCount w = none
  hasMoreEvents : l.hasMoreEvents B = none → ∃ w ∈ l.wrappedPart, B.hasMoreEvents w = none
  onEventsUploaded : ∀ b : BufferedEventBatch σ, b.onEventsUploaded B l = none →
    (∃ w ∈ l.wrappedPart, B.onEventsUploaded b.wrapped w = none) ∨
      ∃ m ∈ l.memoryPart, b.mem.onEventsUploaded m = none

namespace BufferedEventList.WellFormed
variable {B : EventBatch σ ℓ}

theorem wrapped (l : ℓ) (hasMemoryEvents : Bool) :
    WellFormed B (.wrapped l hasMemoryEvents) := by
  refine ⟨fun h => ⟨l, rfl, h⟩, fun h => ⟨l, rfl, h⟩, fun h => ⟨l, rfl, ?_⟩, fun b h => ?_⟩
  · rw [BufferedEventList.hasMoreEvents] at h
    split at h
    · cases h
    · exact h
  · cases hw : B.onEventsUploaded b.wrapped l with
    | none => exact .inl ⟨l, rfl, hw⟩
    | some w => simp [BufferedEventBatch.onEventsUploaded, hw] at h

theorem memory (m : VectorBatchedEventList) : WellFormed B (.memory (some m)) := by
  constructor
  case onEventsUploaded =>
    intro b h
    cases hm : b.mem.onEventsUploaded m with
    | none => exact .inr ⟨m, rfl, hm⟩
    | some mem => simp [BufferedEventBatch.onEventsUploaded, hm] at h
  all_goals
    intro h
    cases h

theorem merged (l : ℓ) (m : VectorBatchedEventList) : WellFormed B (.merged l m) := by
  refine ⟨fun h => ⟨l, rfl, ?_⟩, fun h => ⟨l, rfl, ?_⟩, fun h => ⟨l, rfl, ?_⟩, fun b h => ?_⟩
  · exact Option.map_eq_none_iff.mp h
  · exact Option.map_eq_none_iff.mp h
  · exact Option.map_eq_none_iff.mp h
  · cases hw : B.onEventsUploaded b.wrapped l with
    | none => exact .inl ⟨l, rfl, hw⟩
    | some w =>
      cases hm : b.mem.onEventsUploaded m with
      | none => exact .inr ⟨m, rfl, hm⟩
      | some mem => simp [BufferedEventBatch.onEventsUploaded, hw, hm] at h

/-- A wrapper around a null list is not well formed. -/
theorem not_memory_none : ¬WellFormed B (.memory none) := fun h => by
  obtain ⟨w, hw, -⟩ := h.getData rfl
  cases hw

end BufferedEventList.WellFormed

namespace BufferedEventBatch
open BufferedEventList
variable {B : EventBatch σ ℓ} {b : BufferedEventBatch σ}

/-- What the memory batch alone gives is well formed exactly if it is not null. -/
theorem getMemoryEvents_wellFormed_iff :
    (∀ l b', b.getMemoryEvents c z = some (some l, b') → WellFormed B l) ↔
      c ≠ 0 ∧ z ≠ 0 ∧ b.mem.items ≠ [] := by
  have hnull : c ≠ 0 ∧ z ≠ 0 ∧ b.mem.items ≠ [] ↔ b.mem.getEventsForUpload c z ≠ none := by
    simp [MemoryEventBatch.getEventsForUpload_eq_none]
  rw [hnull]
  cases hmem : b.mem.getEventsForUpload c z with
  | none =>
    refine iff_of_false (fun h => ?_) (not_not_intro rfl)
    exact WellFormed.not_memory_none (h _ b (by rw [getMemoryEvents, hmem]))
  | some m =>
    refine iff_of_true (fun l b' h => ?_) (by simp)
    rw [getMemoryEvents, hmem] at h
    cases h
    exact .memory m

/-- **A list of the buffered batch is well formed** exactly if the wrapped batch gives a list, or
else the memory batch does. -/
theorem lists_wellFormed_iff :
    (∀ l b', b.getEventsForUpload B c z = some (some l, b') → WellFormed B l) ↔
      (c ≠ 0 ∧ z ≠ 0 ∧ b.mem.items ≠ []) ∨
        (B.hasEvents b.wrapped = true ∧
          ∀ w, B.getEventsForUpload b.wrapped c z ≠ some (none, w)) := by
  cases hev : B.hasEvents b.wrapped with
  | false =>
    rw [getEventsForUpload, hev]
    simpa using getMemoryEvents_wellFormed_iff
  | true =>
    rw [getEventsForUpload, hev, if_pos rfl]
    cases hw : B.getEventsForUpload b.wrapped c z with
    | none =>
      refine iff_of_true (fun l b' h => ?_) (.inr ⟨rfl, fun w h => ?_⟩)
      · cases h
      · cases h
    | some r =>
      obtain ⟨ret, w⟩ := r
      cases ret with
      | none =>
        have hmem := getMemoryEvents_wellFormed_iff (B := B) (b := { b with wrapped := w }) (c := c)
          (z := z)
        simpa using hmem
      | some ret =>
        refine iff_of_true (fun l b' h => ?_) (.inr ⟨rfl, by simp⟩)
        simp only [Option.bind_eq_bind, Option.bind_some, Option.bind_eq_some_iff] at h
        obtain ⟨retMem, -, h⟩ := h
        cases retMem with
        | none =>
          cases h
          exact .wrapped _ _
        | some m =>
          cases h
          exact .merged _ _

/-- With no event stored, the list that is handed out is a wrapper around null, and the uploader
looks into it. -/
theorem empty_list_not_wellFormed :
    (∃ l b', getEventsForUpload MemoryEventBatch.batch ⟨⟨[], 1⟩, ⟨[], 1⟩⟩ 10 1000 =
      some (some l, b') ∧ ¬WellFormed MemoryEventBatch.batch l) ∧
    ∀ (U : EventUploader Unit) (fuel : Nat) r,
      U.sendEvents (batch MemoryEventBatch.batch) 10 1000 fuel ⟨⟨[], 1⟩, ⟨[], 1⟩⟩ () ≠ .ok r :=
  ⟨⟨_, _, rfl, WellFormed.not_memory_none⟩,
    fun _ fuel => EventUploader.sendEvents_undefined rfl rfl fuel ()⟩

end BufferedEventBatch

end McpeLauncher.Telemetry
