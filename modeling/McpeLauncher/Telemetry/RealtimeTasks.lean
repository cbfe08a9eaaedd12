import McpeLauncher.Lib.Json
import McpeLauncher.Lib.Runs
import McpeLauncher.Telemetry.EventUploader

/-!
# The hand-over of realtime events

`EventManager::uploadRealtimeTasks` uploads the events of the batch in memory and, when an upload
fails, moves all of them to the batches in files, while `EventManager::add` goes on adding events.
Each call on the batch is atomic. Where an event goes is read from its serialised form.

Every event that the batch accepted ends in one way: in an acknowledged list, in one of the batches
in files, or in the fallback of `sendEvents`, which drops the first event when a limit is 0.
-/

namespace McpeLauncher.Telemetry
open ByteLines

/-! ## Events and their envelopes -/

namespace EventFlags

def PersistenceNormal : BitVec 32 := 1
def PersistenceCritical : BitVec 32 := 2
def LatencyNormal : BitVec 32 := 256
def LatencyRealtime : BitVec 32 := 512

end EventFlags

def EventFlagSet (a b : BitVec 32) : Bool := a &&& b ≠ 0

/-- `cll::Event`; its time is given as the text that is sent. -/
structure ClientEvent where
  name : String
  data : Json
  flags : BitVec 32
  ids : List String
  time : String

/-- `EventSerializer::Extension`. -/
structure SerializerExtension where
  getName : String
  build : ClientEvent → Json

structure EventSerializer where
  iKey : String
  epoch : Int
  seqNum : Nat
  os : String
  osVer : String
  appId : String
  appVer : String
  extensions : List SerializerExtension

namespace EventSerializer

/-- A text that is left out if it is empty. -/
def optional (name value : String) : List (String × Json) :=
  if value.isEmpty then [] else [(name, .string value)]

/-- The assignments to the members of an envelope. -/
def fields (s : EventSerializer) (ev : ClientEvent) (ext : Json) : List (String × Json) :=
  [("ver", .string "2.1"), ("name", .string ev.name), ("data", ev.data),
    ("time", .string ev.time), ("popSample", .number 100),
    ("epoch", .string (String.ofList (decimal s.epoch))), ("seqNum", .number s.seqNum),
    ("iKey", .string s.iKey), ("flags", .number ev.flags.toInt)] ++
  (optional "os" s.os ++ optional "osVer" s.osVer ++ optional "appId" s.appId ++
    optional "appVer" s.appVer ++ if s.extensions.isEmpty then [] else [("ext", ext)])

def createEnvelopeFor (s : EventSerializer) (ev : ClientEvent) : Option (Json × EventSerializer) := do
  let ext ← (Json.object []).setAll (s.extensions.map fun e => (e.getName, e.build ev))
  let envelope ← Json.null.setAll (s.fields ev ext)
  return (envelope, { s with seqNum := s.seqNum + 1 })

theorem fst_of_mem_optional {m : String × Json} (h : m ∈ optional name value) : m.1 = name := by
  unfold optional at h
  split at h
  · exact absurd h List.not_mem_nil
  · rw [List.mem_singleton.mp h]

/-- The flags of an event are a member of its envelope. -/
theorem find_flags {s s' : EventSerializer} {ev : ClientEvent} {envelope : Json}
    (h : s.createEnvelopeFor ev = some (envelope, s')) :
    envelope.find "flags" = some (.number ev.flags.toInt) := by
  obtain ⟨ext, _, h⟩ := Option.bind_eq_some_iff.mp h
  obtain ⟨envelope', henv, h⟩ := Option.bind_eq_some_iff.mp h
  cases h
  -- none of the later members has that name
  have hlater : ∀ m ∈ optional "os" s.os ++ optional "osVer" s.osVer ++ optional "appId" s.appId ++
      optional "appVer" s.appVer ++ (if s.extensions.isEmpty then [] else [("ext", ext)]),
      m.1 ≠ "flags" := by
    intro m hm
    simp only [List.mem_append, or_assoc] at hm
    rcases hm with hm | hm | hm | hm | hm
    · rw [fst_of_mem_optional hm]; decide
    · rw [fst_of_mem_optional hm]; decide
    · rw [fst_of_mem_optional hm]; decide
    · rw [fst_of_mem_optional hm]; decide
    · split at hm
      · exact absurd hm List.not_mem_nil
      · simp [List.mem_singleton.mp hm]
  rw [Json.find_setAll henv, fields, List.reverse_append, List.find?_append,
    List.find?_eq_none.mpr fun m hm => by simpa using hlater m (List.mem_reverse.mp hm)]
  rfl

theorem exists_envelope (s : EventSerializer) (ev : ClientEvent) :
    ∃ envelope, s.createEnvelopeFor ev = some (envelope, { s with seqNum := s.seqNum + 1 }) := by
  obtain ⟨ext, hext⟩ := Json.exists_setAll_object []
    (s.extensions.map fun e => (e.getName, e.build ev))
  obtain ⟨members, henv⟩ := Json.exists_setAll_null ("ver", .string "2.1")
    (s.fields ev (.object ext)).tail
  refine ⟨.object members, Option.bind_eq_some_iff.mpr ⟨.object ext, hext, ?_⟩⟩
  exact Option.bind_eq_some_iff.mpr ⟨.object members, henv, rfl⟩

end EventSerializer

/-! ## The hand-over -/

inductive StorageBatch
  | criticalStorageBatch
  | normalStorageBatch
  deriving DecidableEq

/-- The batch in files for an event with these flags, in `add` and in `uploadRealtimeTasks`. -/
def storageFor (flags : BitVec 32) : StorageBatch :=
  if EventFlagSet flags EventFlags.PersistenceCritical then .criticalStorageBatch
  else .normalStorageBatch

/-- How an event that was in the batch in memory ended: in an acknowledged list, in the fallback of
`sendEvents` for the limits it was called with, or in a call of `addEvent` with its result. -/
inductive Outcome
  | acknowledged (events : VectorBatchedEventList)
  | dropped (maxCount maxSize : Nat)
  | stored (batch : StorageBatch) (added : Bool)
  deriving DecidableEq

/-- Where `uploadRealtimeTasks` is. -/
inductive RealtimePc
  /-- It is not running. -/
  | idle
  /-- `while (realtimeMemoryBatch.hasEvents())` -/
  | test
  | updateConfigIfNeeded
  /-- `batch.getEventsForUpload(maxCount, maxSize)` in `sendEvents` -/
  | get (maxCount maxSize : Nat)
  /-- `if (batch.hasEvents())`, without a list -/
  | hasEvents (maxCount maxSize : Nat)
  /-- `batch.getEventsForUpload(1, SIZE_MAX)` -/
  | getFirst (maxCount maxSize : Nat)
  /-- `batch.onEventsUploaded(*ev)` for the first event -/
  | drop (maxCount maxSize : Nat) (ev : VectorBatchedEventList)
  /-- `sendEvents(*events, …)` -/
  | send (events : VectorBatchedEventList)
  /-- `batch.onEventsUploaded(*events)` -/
  | acknowledge (events : VectorBatchedEventList)
  /-- `realtimeMemoryBatch.transferAllEvents()` -/
  | transfer
  /-- The loop over the transferred events, with those that are left. -/
  | store (rest : List Json)
  /-- `mainUploadTask->requestRun(true)` -/
  | requestRun

/-- The batch in memory with its limit, the limits of the uploader, the serializer and the task;
then the events the batch has accepted, with their envelopes, and the envelopes that have left it,
with how they ended. -/
structure RealtimeRun where
  items : List Json
  limit : Nat
  uploaderMaxEvents : Nat
  uploaderMaxSize : Nat
  serializer : EventSerializer
  pc : RealtimePc
  accepted : List (ClientEvent × Json)
  outcomes : List (Json × Outcome)

/-- The steps: a call of `add`, new limits from a download of the configuration, the start of the
task, and its next statement, with the world in which a request is sent and the result of
`addEvent` of a batch in files. -/
inductive RealtimeStep (ω : Type)
  | add (event : ClientEvent)
  | onConfigurationUpdated (maxEvents maxSize : Nat)
  | start
  | task (world : ω) (added : Bool)

namespace RealtimeRun
variable (U : EventUploader ω) (dump : Json → Event)

/-- The batch in memory, by the texts of its events. -/
def realtimeMemoryBatch (s : RealtimeRun) : MemoryEventBatch := ⟨s.items.map dump, s.limit⟩

/-- `EventManager::add`: an event that is not for immediate upload, or that the batch in memory
does not accept, goes to the given batch in files. -/
def add (s : RealtimeRun) (event : ClientEvent) : Option (RealtimeRun × Option StorageBatch) := do
  let (serialized, serializer) ← s.serializer.createEnvelopeFor event
  if EventFlagSet event.flags EventFlags.LatencyRealtime &&
      ((s.realtimeMemoryBatch dump).addEvent (dump serialized)).1 then
    return ({ s with items := s.items ++ [serialized], serializer
                     accepted := s.accepted ++ [(event, serialized)] }, none)
  else return ({ s with serializer }, some (storageFor event.flags))

/-- `onEventsUploaded` of the batch in memory, whose events end in that way. -/
def onEventsUploaded (s : RealtimeRun) (events : VectorBatchedEventList) (outcome : Outcome) :
    Option RealtimeRun :=
  if events.events ≤ s.items.length then
    some { s with items := s.items.drop events.events
                  outcomes := s.outcomes ++ (s.items.take events.events).map (·, outcome) }
  else none

/-- The next statement of `uploadRealtimeTasks`. -/
def task (s : RealtimeRun) (world : ω) (added : Bool) : RealtimePc → Option RealtimeRun
  | .idle => none
  | .test => some { s with pc := if s.items.isEmpty then .idle else .updateConfigIfNeeded }
  | .updateConfigIfNeeded => some { s with pc := .get s.uploaderMaxEvents s.uploaderMaxSize }
  | .get maxCount maxSize =>
    match (s.realtimeMemoryBatch dump).getEventsForUpload maxCount maxSize with
    | none => some { s with pc := .hasEvents maxCount maxSize }
    | some events => some { s with pc := .send events }
  | .hasEvents maxCount maxSize =>
    some { s with pc := if s.items.isEmpty then .test else .getFirst maxCount maxSize }
  | .getFirst maxCount maxSize =>
    match (s.realtimeMemoryBatch dump).getEventsForUpload 1 SIZE_MAX with
    | none => some { s with pc := .transfer }
    | some ev => some { s with pc := .drop maxCount maxSize ev }
  | .drop maxCount maxSize ev =>
    (s.onEventsUploaded ev (.dropped maxCount maxSize)).map ({ · with pc := .get maxCount maxSize })
  | .send events =>
    match U.sendEventList events.data (events.events > 1) true world with
    | .error _ => none
    | .ok (ret, _) => some { s with pc := if ret.toBool then .acknowledge events else .transfer }
  | .acknowledge events =>
    (s.onEventsUploaded events (.acknowledged events)).map ({ · with pc := .test })
  | .transfer => some { s with pc := .store s.items, items := [] }
  | .store [] => some { s with pc := .requestRun }
  | .store (ev :: rest) => do
    let flags := BitVec.ofInt 32 (← ev.valueInt "flags" 0)
    return { s with pc := .store rest
                    outcomes := s.outcomes ++ [(ev, .stored (storageFor flags) added)] }
  | .requestRun => some { s with pc := .test }

def step (s : RealtimeRun) : RealtimeStep ω → Option RealtimeRun
  | .add event => (s.add dump event).map (·.1)
  | .onConfigurationUpdated maxEvents maxSize =>
    some { s with uploaderMaxEvents := maxEvents, uploaderMaxSize := maxSize }
  | .start =>
    match s.pc with
    | .idle => some { s with pc := .test }
    | _ => none
  | .task world added => s.task U dump world added s.pc

def init (limit maxEvents maxSize : Nat) (serializer : EventSerializer) : RealtimeRun where
  items := []
  limit := limit
  uploaderMaxEvents := maxEvents
  uploaderMaxSize := maxSize
  serializer := serializer
  pc := .idle
  accepted := []
  outcomes := []

end RealtimeRun

/-! ## What the outcomes mean -/

/-- A request with the data of the list was answered with 200. -/
def EventUploader.Answered200 (U : EventUploader ω) (data : Bytes) : Prop :=
  ∃ req w res w', U.send req w = (some res, w') ∧ res.status = 200 ∧
    (req.postData = data ∨ req.postData = U.compress data)

namespace EventUploader
variable {U : EventUploader ω}

theorem attempt_success {compress : Bool} {retry : ω → Except Fault (EventUploadStatus × ω)}
    (h : U.attempt data compress w retry = .ok (ret, w')) (hret : ret.toBool = true) :
    U.Answered200 data ∨ ∃ w₁, retry w₁ = .ok (ret, w') := by
  have hpost : (U.createRequest data compress w).1.postData =
      if compress then U.compress data else data := rfl
  simp only [attempt] at h
  split at h
  · cases h
    cases hret
  · next res w₁ hsend =>
    split at h
    · next hstatus =>
      refine .inl ⟨_, _, res, w₁, hsend, hstatus, ?_⟩
      rw [hpost]
      cases compress with
      | true => exact .inr rfl
      | false => exact .inl rfl
    · split at h
      · split at h
        · cases h
          cases hret
        · cases hr : retryAfterSeconds (res.findHeader "Retry-After") with
          | error e =>
            rw [hr] at h
            cases h
          | ok n =>
            rw [hr] at h
            cases h
            cases hret
      · split at h
        · split at h
          · exact .inr ⟨_, h⟩
          · cases h
            cases hret
        · cases h
          cases hret

/-- A list counts as uploaded only after an answer 200. -/
theorem sendEventList_success_inv {compress canRetry : Bool}
    (h : U.sendEventList data compress canRetry w = .ok (ret, w')) (hret : ret.toBool = true) :
    U.Answered200 data := by
  rcases attempt_success h hret with h | ⟨w₁, h⟩
  · exact h
  · split at h
    · rcases attempt_success h hret with h | ⟨w₂, h⟩
      · exact h
      · cases h
        cases hret
    · cases h
      cases hret

end EventUploader

/-- The events that have been taken out of the batch and not yet been stored. -/
def RealtimePc.transit : RealtimePc → List Json
  | .store rest => rest
  | _ => []

namespace RealtimeRun
variable (U : EventUploader ω) (dump : Json → Event)

/-- An envelope may end so. -/
def OutcomeOk (envelope : Json) : Outcome → Prop
  | .acknowledged events => U.Answered200 events.data ∧ (dump envelope).record ∈ lines events.data
  | .dropped maxCount maxSize => maxCount = 0 ∨ maxSize = 0
  | .stored batch _ => ∀ n, envelope.find "flags" = some (.number n) →
      batch = storageFor (BitVec.ofInt 32 n)

/-- The list holds the first events of the batch. -/
structure FirstItems (s : RealtimeRun) (l : VectorBatchedEventList) : Prop where
  le : l.events ≤ s.items.length
  data : l.data = records ((s.items.take l.events).map dump)

/-- What the task knows in a place: a list in its hands holds the first events, and there is none
only if a limit is 0. -/
def PcOk (s : RealtimeRun) : RealtimePc → Prop
  | .updateConfigIfNeeded => s.items ≠ []
  | .get maxCount maxSize => s.items ≠ [] ∨ maxCount = 0 ∨ maxSize = 0
  | .hasEvents maxCount maxSize | .getFirst maxCount maxSize => maxCount = 0 ∨ maxSize = 0
  | .drop maxCount maxSize ev => (maxCount = 0 ∨ maxSize = 0) ∧ s.FirstItems dump ev
  | .send events => s.FirstItems dump events
  | .acknowledge events => s.FirstItems dump events ∧ U.Answered200 events.data
  | _ => True

structure Inv (s : RealtimeRun) : Prop where
  balance : s.accepted.map Prod.snd = s.outcomes.map Prod.fst ++ (s.pc.transit ++ s.items)
  flags : ∀ p ∈ s.accepted, p.2.find "flags" = some (.number p.1.flags.toInt)
  outcomes : ∀ o ∈ s.outcomes, OutcomeOk U dump o.1 o.2
  pc : s.PcOk U dump s.pc

variable {U dump} {s s' : RealtimeRun}

theorem inv_init (limit maxEvents maxSize : Nat) (serializer : EventSerializer) :
    (init limit maxEvents maxSize serializer).Inv U dump :=
  ⟨rfl, fun _ h => absurd h List.not_mem_nil, fun _ h => absurd h List.not_mem_nil, trivial⟩

/-- A list that the batch gives out holds its first events. -/
theorem firstItems_of_get
    (h : (s.realtimeMemoryBatch dump).getEventsForUpload c z = some l) : s.FirstItems dump l := by
  obtain ⟨hle, hdata, _⟩ := MemoryEventBatch.getEventsForUpload_spec h
  simp only [realtimeMemoryBatch, List.length_map, ← List.map_take] at hle hdata
  exact ⟨hle, hdata⟩

theorem FirstItems.append {l : VectorBatchedEventList} (h : s.FirstItems dump l)
    (hitems : s'.items = s.items ++ more) : s'.FirstItems dump l := by
  refine ⟨?_, ?_⟩
  · rw [hitems, List.length_append]
    exact Nat.le_add_right_of_le h.le
  · rw [hitems, List.take_append_of_le_length h.le, h.data]

/-- Events that are added do not disturb the task. -/
theorem PcOk.append {pc : RealtimePc} (h : s.PcOk U dump pc) (hitems : s'.items = s.items ++ more) :
    s'.PcOk U dump pc := by
  have hne : s.items ≠ [] → s'.items ≠ [] := fun h => by simp [hitems, h]
  cases pc with
  | updateConfigIfNeeded => exact hne h
  | get c z => exact Or.imp_left hne h
  | hasEvents c z => exact h
  | getFirst c z => exact h
  | drop c z ev => exact ⟨h.1, h.2.append hitems⟩
  | send events => exact FirstItems.append h hitems
  | acknowledge events => exact ⟨h.1.append hitems, h.2⟩
  | idle | test | transfer | store rest | requestRun => trivial

theorem Inv.add (h : s.Inv U dump) (hs : s.add dump event = some (s', r)) : s'.Inv U dump := by
  obtain ⟨⟨serialized, serializer⟩, henv, hs⟩ := Option.bind_eq_some_iff.mp hs
  simp only at hs
  split at hs
  · cases hs
    refine ⟨?_, ?_, h.outcomes, h.pc.append rfl⟩
    · simp only [List.map_append, h.balance, List.append_assoc, List.map_cons, List.map_nil]
    · intro p hp
      rcases List.mem_append.mp hp with hp | hp
      · exact h.flags p hp
      · rw [List.mem_singleton.mp hp]
        exact EventSerializer.find_flags henv
  · cases hs
    exact ⟨h.balance, h.flags, h.outcomes, h.pc.append (List.append_nil _).symm⟩

/-- The first events leave the batch, and all of them may end in that way. -/
theorem Inv.onEventsUploaded (h : s.Inv U dump) (hpc : s.pc.transit = [])
    (hs : s.onEventsUploaded l outcome = some s')
    (hout : ∀ j ∈ s.items.take l.events, OutcomeOk U dump j outcome) (pc : RealtimePc)
    (htransit : pc.transit = []) (hok : { s' with pc }.PcOk U dump pc) :
    { s' with pc }.Inv U dump := by
  unfold RealtimeRun.onEventsUploaded at hs
  split at hs
  · cases hs
    refine ⟨?_, h.flags, ?_, hok⟩
    · simp only [h.balance, hpc, htransit, List.map_append, List.map_map, List.nil_append,
        List.append_assoc]
      have : (s.items.take l.events).map (Prod.fst ∘ (·, outcome)) = s.items.take l.events :=
        List.map_id _
      rw [this, List.take_append_drop]
    · intro o ho
      rcases List.mem_append.mp ho with ho | ho
      · exact h.outcomes o ho
      · obtain ⟨j, hj, rfl⟩ := List.mem_map.mp ho
        exact hout j hj
  · cases hs

/-- The task goes on to another place, without touching the batch. -/
theorem Inv.goto (h : s.Inv U dump) (hpc : s.pc.transit = []) {pc : RealtimePc}
    (htransit : pc.transit = []) (hok : s.PcOk U dump pc) : { s with pc }.Inv U dump := by
  refine ⟨?_, h.flags, h.outcomes, PcOk.append (s := s) hok (List.append_nil _).symm⟩
  simp only [h.balance, hpc, htransit]

/-- The batch gives no list only if a limit is 0 or it is empty. -/
theorem get_none (h : (s.realtimeMemoryBatch dump).getEventsForUpload c z = none)
    (hok : s.items ≠ [] ∨ c = 0 ∨ z = 0) : c = 0 ∨ z = 0 := by
  rcases MemoryEventBatch.getEventsForUpload_eq_none.mp h with hc | hz | hnil
  · exact .inl hc
  · exact .inr hz
  · refine hok.resolve_left fun hne => hne ?_
    simpa [realtimeMemoryBatch] using hnil

/-- Each event of a list that holds the first events is a line of its data. -/
theorem FirstItems.record_mem {l : VectorBatchedEventList} (h : s.FirstItems dump l)
    (hj : j ∈ s.items.take l.events) : (dump j).record ∈ lines l.data := by
  rw [h.data, lines_records]
  exact List.mem_map_of_mem (List.mem_map_of_mem hj)

/-- The next event of those that were taken out is stored. -/
theorem Inv.store (h : s.Inv U dump) (hpc : s.pc = .store (ev :: rest))
    (hflags : ev.valueInt "flags" 0 = some n) (added : Bool) :
    { s with pc := .store rest
             outcomes := s.outcomes ++ [(ev, .stored (storageFor (BitVec.ofInt 32 n)) added)]
      : RealtimeRun }.Inv U dump := by
  refine ⟨?_, h.flags, ?_, trivial⟩
  · simp [h.balance, hpc, RealtimePc.transit]
  · intro o ho
    rcases List.mem_append.mp ho with ho | ho
    · exact h.outcomes o ho
    · rw [List.mem_singleton.mp ho]
      intro n' hn'
      rw [Json.valueInt_of_find hn'] at hflags
      cases hflags
      rfl

/-- Each statement of the task keeps the invariant. -/
theorem Inv.task {pc : RealtimePc} (h : s.Inv U dump) (hpc : s.pc = pc)
    (hs : s.task U dump world added pc = some s') : s'.Inv U dump := by
  have hok : s.PcOk U dump pc := hpc ▸ h.pc
  have hgoto {pc' : RealtimePc} (htransit : pc.transit = []) (htransit' : pc'.transit = [])
      (hok' : s.PcOk U dump pc') : { s with pc := pc' }.Inv U dump :=
    h.goto (hpc ▸ htransit) htransit' hok'
  cases pc with
  | idle => cases hs
  | test =>
    cases hs
    split
    · exact hgoto rfl rfl trivial
    · next hne => exact hgoto rfl rfl fun hnil => hne (by simp [hnil])
  | updateConfigIfNeeded =>
    cases hs
    exact hgoto rfl rfl (.inl hok)
  | get c z =>
    simp only [RealtimeRun.task] at hs
    split at hs
    · next hget =>
      cases hs
      exact hgoto rfl rfl (get_none hget hok)
    · next l hget =>
      cases hs
      exact hgoto rfl rfl (firstItems_of_get hget)
  | hasEvents c z =>
    cases hs
    split
    · exact hgoto rfl rfl trivial
    · exact hgoto rfl rfl hok
  | getFirst c z =>
    simp only [RealtimeRun.task] at hs
    split at hs
    · cases hs
      exact hgoto rfl rfl trivial
    · next l hget =>
      cases hs
      exact hgoto rfl rfl ⟨hok, firstItems_of_get hget⟩
  | drop c z ev =>
    obtain ⟨s₁, hack, rfl⟩ := Option.map_eq_some_iff.mp hs
    exact h.onEventsUploaded (by rw [hpc]; rfl) hack (fun _ _ => hok.1) _ rfl (.inr hok.1)
  | send l =>
    simp only [RealtimeRun.task] at hs
    split at hs
    · cases hs
    · next ret w' hsend =>
      cases hs
      split
      · next hret => exact hgoto rfl rfl ⟨hok, U.sendEventList_success_inv hsend hret⟩
      · exact hgoto rfl rfl trivial
  | acknowledge l =>
    obtain ⟨s₁, hack, rfl⟩ := Option.map_eq_some_iff.mp hs
    exact h.onEventsUploaded (by rw [hpc]; rfl) hack
      (fun _ hj => ⟨hok.2, hok.1.record_mem hj⟩) _ rfl trivial
  | transfer =>
    cases hs
    refine ⟨?_, h.flags, h.outcomes, trivial⟩
    simp [h.balance, hpc, RealtimePc.transit]
  | store rest =>
    cases rest with
    | nil =>
      cases hs
      exact hgoto rfl rfl trivial
    | cons ev rest =>
      obtain ⟨n, hn, hs⟩ := Option.bind_eq_some_iff.mp hs
      cases hs
      exact h.store hpc hn added
  | requestRun =>
    cases hs
    exact hgoto rfl rfl trivial

theorem Inv.step {a : RealtimeStep ω} (h : s.Inv U dump) (hs : s.step U dump a = some s') :
    s'.Inv U dump := by
  cases a with
  | add event =>
    obtain ⟨r, hadd, rfl⟩ := Option.map_eq_some_iff.mp hs
    exact h.add (r := r.2) hadd
  | onConfigurationUpdated c z =>
    cases hs
    exact ⟨h.balance, h.flags, h.outcomes, h.pc.append (List.append_nil _).symm⟩
  | start =>
    simp only [RealtimeRun.step] at hs
    split at hs
    · next hpc =>
      cases hs
      exact h.goto (by rw [hpc]; rfl) rfl trivial
    · cases hs
  | task world added => exact h.task rfl hs

end RealtimeRun

end McpeLauncher.Telemetry
