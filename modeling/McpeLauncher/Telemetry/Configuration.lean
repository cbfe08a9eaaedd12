import Mathlib.Algebra.Group.Int.Defs
import McpeLauncher.Lib.Json
import McpeLauncher.Telemetry.EventUploader

/-!
# Responses of the servers

What the texts that a server sends go through: the header `Retry-After` in
`EventUploader::sendEvents`, and the body and the headers of a configuration in
`Configuration::download`. Texts that are not as expected end in an exception that nobody catches.

The JSON parser and the serializer are parameters, and so is what an uninitialised variable holds.
-/

namespace McpeLauncher.Telemetry
open ByteLines

/-- The exceptions: a JSON value of another type, and the two of the number conversions. -/
inductive ConfigurationError
  | typeError
  | invalidArgument
  | outOfRange
  deriving DecidableEq

def typed : Option α → Except ConfigurationError α
  | none => .error .typeError
  | some a => .ok a

/-- `std::stoi`. -/
def stoi (s : String) : Except ConfigurationError Int :=
  match stoull s.toList with
  | none => .error .invalidArgument
  | some n => if -2147483648 ≤ n ∧ n ≤ 2147483647 then .ok n else .error .outOfRange

/-- `JsonUtils::asInt`. -/
def asInt (val : Json) : Except ConfigurationError Int := do
  if val.isNumber then typed val.getInt
  else stoi (← typed val.getString)

/-- What the JSON library does with texts: a text that is not JSON gives no value, and a value with
a string that is not text in UTF-8 cannot be written. -/
structure JsonLibrary where
  parse : Bytes → Option Json
  dump : Json → Option Bytes

structure ConfigurationProperty where
  value : Int
  valueSet : Bool

namespace ConfigurationProperty

def reset : ConfigurationProperty := ⟨0, false⟩

/-- `set(json, name)`. -/
def set (json : Json) (name : String) : Except ConfigurationError ConfigurationProperty :=
  match json.find name with
  | none => .ok reset
  | some f => do return ⟨← asInt f, true⟩

end ConfigurationProperty

/-- Times are in milliseconds, the interval is in seconds. -/
structure CachedConfiguration where
  expires : Int
  refreshInterval : Int
  etag : String
  data : Json

/-- The cache with its document; a file that cannot be opened is not written. -/
structure FileConfigurationCache where
  data : Json
  canOpen : Bool

namespace FileConfigurationCache

def readFromCache (cache : FileConfigurationCache) (url : String) :
    Except ConfigurationError (Option CachedConfiguration) :=
  match cache.data.find url with
  | none => .ok none
  | some en => do
    let refreshInterval ← typed (en.valueInt "refreshInterval" 0)
    let expires ← typed (en.valueInt "expires" 0)
    let etag ← typed (en.value Json.getString "etag" "")
    let data ← typed (en.value some "data" (.object []))
    return some { expires, refreshInterval, etag, data }

/-- The document with a new entry. -/
def document (cache : FileConfigurationCache) (url : String) (config : CachedConfiguration) :
    Option Json := do
  let (en, data) ← cache.data.index url
  let en ← en.setAll [("expires", .number config.expires),
    ("refreshInterval", .number config.refreshInterval), ("etag", .string config.etag),
    ("data", config.data)]
  data.set url en

/-- `writeConfigToCache`, with the `store` at its end. -/
def writeConfigToCache (L : JsonLibrary) (cache : FileConfigurationCache) (url : String)
    (config : CachedConfiguration) : Except ConfigurationError FileConfigurationCache := do
  let data ← typed (cache.document url config)
  if cache.canOpen then
    let _ ← typed (L.dump data)
    return { cache with data }
  else return { cache with data }

end FileConfigurationCache

structure Configuration where
  url : String
  downloaded : Bool
  expires : Int
  downloadMinRetryTime : Int
  downloadAttempt : Nat
  maxEventSizeInBytes : ConfigurationProperty
  maxEventsPerPost : ConfigurationProperty
  queueDrainInterval : ConfigurationProperty

/-- What a call of `download` meets: the times at which it starts and looks at the cache, what
uninitialised variables hold, and the answer to a request with some headers, none if it fails. -/
structure DownloadContext where
  requestStart : Int
  now : Int
  uninitialised : Int
  send : (url : String) → Headers → Option HttpResponse

/-- The response that `download` goes on with. After a failed request its status is whatever the
variable held. -/
def DownloadContext.response (x : DownloadContext) (url : String) (headers : Headers) :
    HttpResponse :=
  (x.send url headers).getD ⟨x.uninitialised, [], []⟩

namespace Configuration

def applyFromJson (c : Configuration) (json : Json) : Except ConfigurationError Configuration := do
  let maxEventSizeInBytes ← ConfigurationProperty.set json "MAXEVENTSIZEINBYTES"
  let maxEventsPerPost ← ConfigurationProperty.set json "MAXEVENTSPERPOST"
  let queueDrainInterval ← ConfigurationProperty.set json "QUEUEDRAININTERVAL"
  return { c with maxEventSizeInBytes, maxEventsPerPost, queueDrainInterval }

def importCached (c : Configuration) (cached : CachedConfiguration) :
    Except ConfigurationError Configuration :=
  { c with expires := cached.expires, downloaded := true }.applyFromJson cached.data

def safeParseJson (L : JsonLibrary) (str : Bytes) : Json := (L.parse str).getD (.object [])

/-- `if (cache) cache->writeConfigToCache(url, cached)`. -/
def writeIfCached (L : JsonLibrary) (c : Configuration) (cache : Option FileConfigurationCache)
    (cached : CachedConfiguration) : Except ConfigurationError (Option FileConfigurationCache) :=
  match cache with
  | none => .ok none
  | some cache => do return some (← cache.writeConfigToCache L c.url cached)

/-- `download` after the response. -/
def onResponse (L : JsonLibrary) (requestStart : Int) (c : Configuration)
    (cache : Option FileConfigurationCache) (cached : CachedConfiguration)
    (response : HttpResponse) :
    Except ConfigurationError (Bool × Configuration × Option FileConfigurationCache) := do
  if response.status = 200 then
    let val := safeParseJson L response.body
    let (settings, val) ← typed (val.index "settings")
    let (interval, _) ← typed (val.index "refreshInterval")
    let refreshInterval := (← asInt interval) * 60
    let cached : CachedConfiguration :=
      { refreshInterval, expires := requestStart + refreshInterval * 1000, data := settings
        etag := response.findHeader "ETag" }
    let c ← c.applyFromJson settings
    let cache ← c.writeIfCached L cache cached
    return (true, { c with expires := cached.expires, downloaded := true, downloadAttempt := 0 },
      cache)
  else if response.status = 304 then
    let cached := { cached with expires := requestStart + cached.refreshInterval * 1000 }
    let c ← c.importCached cached
    let cache ← c.writeIfCached L cache cached
    return (true, c, cache)
  else
    let downloadAttempt := c.downloadAttempt + 1
    return (false, { c with downloadAttempt, downloadMinRetryTime :=
      requestStart + 1000 * 2 ^ min (downloadAttempt + 1) 8 }, cache)

/-- `if (cache) hasCached = cache->readFromCache(url, cached)`. -/
def readCached (cache : Option FileConfigurationCache) (url : String) :
    Except ConfigurationError (Option CachedConfiguration) :=
  match cache with
  | none => .ok none
  | some cache => cache.readFromCache url

def etagHeader (cached : CachedConfiguration) : Headers :=
  [("If-None-Match", "\"" ++ cached.etag ++ "\"")]

def download (L : JsonLibrary) (x : DownloadContext) (c : Configuration)
    (cache : Option FileConfigurationCache) :
    Except ConfigurationError (Bool × Configuration × Option FileConfigurationCache) := do
  if x.requestStart < c.downloadMinRetryTime then return (false, c, cache)
  else
    match ← readCached cache c.url with
    | some cached =>
      if x.now < cached.expires then
        return (true, { ← c.importCached cached with downloadAttempt := 0 }, cache)
      else c.onResponse L x.requestStart cache cached (x.response c.url (etagHeader cached))
    | none =>
      c.onResponse L x.requestStart cache ⟨0, x.uninitialised, "", .null⟩ (x.response c.url [])

end Configuration

/-! ## Calls that return -/

/-- The call returns a value. -/
def Returns (x : Except ε α) : Prop := ∃ a, x = .ok a

theorem returns_ok (a : α) : Returns (.ok a : Except ε α) := ⟨a, rfl⟩

theorem returns_pure (a : α) : Returns (pure a : Except ε α) := ⟨a, rfl⟩

theorem not_returns_error (e : ε) : ¬Returns (.error e : Except ε α) := by
  rintro ⟨a, h⟩
  cases h

theorem bind_eq_ok {x : Except ε α} {f : α → Except ε β} :
    (x >>= f) = .ok b ↔ ∃ a, x = .ok a ∧ f a = .ok b := by
  cases x with
  | error e =>
    constructor
    · intro h
      cases h
    · rintro ⟨a, h, _⟩
      cases h
  | ok a =>
    constructor
    · exact fun h => ⟨a, rfl, h⟩
    · rintro ⟨b, h, hf⟩
      cases h
      exact hf

theorem returns_bind {x : Except ε α} {f : α → Except ε β} :
    Returns (x >>= f) ↔ ∃ a, x = .ok a ∧ Returns (f a) := by
  simp only [Returns, bind_eq_ok]
  exact exists_comm.trans (exists_congr fun a => exists_and_left)

theorem typed_eq_ok {o : Option α} : typed o = .ok a ↔ o = some a := by
  cases o with
  | none => simp [typed]
  | some b => simp [typed]

/-- The value is the number `n`, or a text that starts with a decimal number in the range of
`int`. -/
def HasInt (val : Json) (n : Int) : Prop :=
  val = .number n ∨
    ∃ s, val = .string s ∧ stoull s.toList = some n ∧ -2147483648 ≤ n ∧ n ≤ 2147483647

theorem HasInt.ne_null (h : HasInt val n) : val ≠ .null := by
  rintro rfl
  rcases h with h | ⟨s, h, _⟩
  · cases h
  · cases h

theorem stoi_eq_ok : stoi s = .ok n ↔
    stoull s.toList = some n ∧ -2147483648 ≤ n ∧ n ≤ 2147483647 := by
  unfold stoi
  split
  · next h => simp [h]
  · next m h =>
    rw [h, Option.some.injEq]
    constructor
    · intro hm
      split at hm
      · next hr =>
        cases hm
        exact ⟨rfl, hr⟩
      · cases hm
    · rintro ⟨rfl, hr⟩
      exact if_pos hr

theorem asInt_eq_ok {val : Json} : asInt val = .ok n ↔ HasInt val n := by
  cases val with
  | number m => simp [asInt, Json.isNumber, Json.getInt, typed, HasInt]
  | string s =>
    have hstoi : asInt (.string s) = stoi s := rfl
    simp [hstoi, stoi_eq_ok, HasInt]
  | null => simp [asInt, Json.isNumber, Json.getString, typed, HasInt, bind, Except.bind]
  | bool b => simp [asInt, Json.isNumber, Json.getString, typed, HasInt, bind, Except.bind]
  | array items => simp [asInt, Json.isNumber, Json.getString, typed, HasInt, bind, Except.bind]
  | object members => simp [asInt, Json.isNumber, Json.getString, typed, HasInt, bind, Except.bind]

/-- Each setting that is there is an integer. -/
def SettingsOk (json : Json) : Prop :=
  ∀ name ∈ ["MAXEVENTSIZEINBYTES", "MAXEVENTSPERPOST", "QUEUEDRAININTERVAL"],
    ∀ f, json.find name = some f → ∃ n, HasInt f n

theorem ConfigurationProperty.returns_set {json : Json} : Returns (set json name) ↔
    ∀ f, json.find name = some f → ∃ n, HasInt f n := by
  unfold set
  split
  · next h => simp [h, returns_ok]
  · next f h =>
    rw [returns_bind]
    constructor
    · rintro ⟨n, hn, _⟩ f' hf'
      rw [h, Option.some.injEq] at hf'
      exact ⟨n, asInt_eq_ok.mp (hf' ▸ hn)⟩
    · intro hall
      obtain ⟨n, hn⟩ := hall f h
      exact ⟨n, asInt_eq_ok.mpr hn, returns_pure _⟩

theorem Configuration.returns_applyFromJson {c : Configuration} :
    Returns (c.applyFromJson json) ↔ SettingsOk json := by
  simp only [SettingsOk, List.forall_mem_cons, ← ConfigurationProperty.returns_set]
  simp only [applyFromJson, returns_bind]
  constructor
  · rintro ⟨p₁, h₁, p₂, h₂, p₃, h₃, _⟩
    exact ⟨⟨p₁, h₁⟩, ⟨p₂, h₂⟩, ⟨p₃, h₃⟩, fun _ h => absurd h List.not_mem_nil⟩
  · rintro ⟨⟨p₁, h₁⟩, ⟨p₂, h₂⟩, ⟨p₃, h₃⟩, _⟩
    exact ⟨p₁, h₁, p₂, h₂, p₃, h₃, returns_pure _⟩

/-! ## The configuration -/

namespace FileConfigurationCache
variable {L : JsonLibrary} {cache : FileConfigurationCache}

/-- The document with the new entry exists, and it can be written if the file can be opened. -/
def WriteOk (L : JsonLibrary) (cache : FileConfigurationCache) (url : String)
    (config : CachedConfiguration) : Prop :=
  ∃ data, cache.document url config = some data ∧
    (cache.canOpen = true → ∃ text, L.dump data = some text)

theorem returns_writeConfigToCache :
    Returns (cache.writeConfigToCache L url config) ↔ cache.WriteOk L url config := by
  simp only [writeConfigToCache, WriteOk, returns_bind, typed_eq_ok]
  refine exists_congr fun data => and_congr_right fun _ => ?_
  split
  · next hopen =>
    rw [returns_bind]
    simp only [typed_eq_ok, hopen, forall_const]
    exact exists_congr fun text => and_iff_left (returns_pure _)
  · next hopen => exact iff_of_true (returns_pure _) fun h => absurd h hopen

end FileConfigurationCache

namespace Configuration
variable {L : JsonLibrary} {c : Configuration} {cache : Option FileConfigurationCache}

/-- The new entry can be written to the cache, if there is a cache. -/
def CacheOk (L : JsonLibrary) (cache : Option FileConfigurationCache) (url : String)
    (config : CachedConfiguration) : Prop :=
  ∀ f, cache = some f → f.WriteOk L url config

theorem returns_writeIfCached :
    Returns (c.writeIfCached L cache cached) ↔ CacheOk L cache c.url cached := by
  cases cache with
  | none => exact iff_of_true (returns_ok _) fun f h => by cases h
  | some f =>
    simp only [writeIfCached, CacheOk, Option.some.injEq, forall_eq', ←
      FileConfigurationCache.returns_writeConfigToCache, returns_bind]
    exact exists_congr fun _ => and_iff_left (returns_pure _)

theorem url_applyFromJson (h : c.applyFromJson json = .ok c') : c'.url = c.url := by
  obtain ⟨p₁, _, h⟩ := bind_eq_ok.mp h
  obtain ⟨p₂, _, h⟩ := bind_eq_ok.mp h
  obtain ⟨p₃, _, h⟩ := bind_eq_ok.mp h
  cases h
  rfl

theorem returns_importCached : Returns (c.importCached cached) ↔ SettingsOk cached.data :=
  returns_applyFromJson

theorem url_importCached (h : c.importCached cached = .ok c') : c'.url = c.url :=
  url_applyFromJson (c := { c with expires := cached.expires, downloaded := true }) h

/-- The settings of a body and its refresh interval in seconds, as `onResponse` reads them. -/
def readBody (L : JsonLibrary) (body : Bytes) : Except ConfigurationError (Json × Int) := do
  let val := safeParseJson L body
  let (settings, val) ← typed (val.index "settings")
  let (interval, _) ← typed (val.index "refreshInterval")
  return (settings, (← asInt interval) * 60)

theorem readBody_eq_ok {L : JsonLibrary} {body : Bytes} {settings : Json} :
    readBody L body = .ok (settings, m) ↔ ∃ val interval n, L.parse body = some val ∧
      val.find "refreshInterval" = some interval ∧ HasInt interval n ∧
      settings = (val.find "settings").getD .null ∧ m = n * 60 := by
  constructor
  · intro h
    obtain ⟨⟨settings', val'⟩, h₁, h⟩ := bind_eq_ok.mp h
    obtain ⟨⟨interval, val''⟩, h₂, h⟩ := bind_eq_ok.mp h
    obtain ⟨n, hn, h⟩ := bind_eq_ok.mp h
    cases h
    rw [asInt_eq_ok] at hn
    obtain ⟨rfl, hkeep⟩ := Json.index_eq_some (typed_eq_ok.mp h₁)
    obtain ⟨hi, _⟩ := Json.index_eq_some (typed_eq_ok.mp h₂)
    rw [hkeep _ (by decide)] at hi
    -- an interval that is not null is a member of the parsed value
    cases hf : (safeParseJson L body).find "refreshInterval" with
    | none =>
      rw [hf] at hi
      exact absurd hi hn.ne_null
    | some v =>
      rw [hf] at hi
      cases hp : L.parse body with
      | none => simp [safeParseJson, hp, Json.find, Json.member] at hf
      | some val =>
        have hval : safeParseJson L body = val := by simp [safeParseJson, hp]
        rw [hval] at hf ⊢
        exact ⟨val, interval, n, rfl, by rw [hf, hi]; rfl, hn, rfl, rfl⟩
  · rintro ⟨val, interval, n, hparse, hinterval, hn, rfl, rfl⟩
    have hval : safeParseJson L body = val := by simp [safeParseJson, hparse]
    obtain ⟨⟨settings, val'⟩, h₁⟩ := Json.exists_index_of_find hinterval "settings"
    obtain ⟨rfl, hkeep⟩ := Json.index_eq_some h₁
    have hinterval' : val'.find "refreshInterval" = some interval := by
      rw [hkeep _ (by decide), hinterval]
    have h₂ : val'.index "refreshInterval" = some (interval, val') := by
      unfold Json.index
      rw [hinterval']
    rw [← hval] at h₁
    exact bind_eq_ok.mpr ⟨_, typed_eq_ok.mpr h₁, bind_eq_ok.mpr ⟨_, typed_eq_ok.mpr h₂,
      bind_eq_ok.mpr ⟨n, asInt_eq_ok.mpr hn, by rw [hval]; rfl⟩⟩⟩

theorem onResponse_of_ok (h : response.status = 200) :
    c.onResponse L requestStart cache cached response =
      readBody L response.body >>= fun (settings, refreshInterval) => do
        let cached : CachedConfiguration :=
          { refreshInterval, expires := requestStart + refreshInterval * 1000, data := settings
            etag := response.findHeader "ETag" }
        let c ← c.applyFromJson settings
        let cache ← c.writeIfCached L cache cached
        return (true, { c with expires := cached.expires, downloaded := true, downloadAttempt := 0 },
          cache) := by
  simp only [onResponse, h, if_true, readBody, bind_assoc, pure_bind]

end Configuration

/-! ## The uploads -/

namespace EventUploader
variable (U : EventUploader ω)

/-- What the steps do after a failed authentication, and whether one of them wants a retry. -/
def onAuthenticationFailed (w : ω) : Bool × ω :=
  U.steps.foldl (fun (wanted, w) step =>
    let (r, w) := step.onAuthenticationFailed w
    (wanted || r, w)) (false, w)

variable {U}

end EventUploader

/-- The parser on the text `[]`. -/
def JsonLibrary.emptyArray : JsonLibrary where
  parse := fun text => if text = [91, 93] then some (.array []) else none
  dump := fun _ => some [91, 93]

/-- A server that sends an empty array for the configuration. -/
def DownloadContext.emptyArray : DownloadContext where
  requestStart := 1
  now := 1
  uninitialised := 0
  send := fun _ _ => some ⟨200, [], [91, 93]⟩

/-- The first configuration of `ConfigurationManager`, before it is downloaded. -/
def Configuration.androidLL : Configuration where
  url := "https://settings.data.microsoft.com/settings/v2.0/androidLL/app"
  downloaded := false
  expires := 0
  downloadMinRetryTime := 0
  downloadAttempt := 0
  maxEventSizeInBytes := .reset
  maxEventsPerPost := .reset
  queueDrainInterval := .reset

end McpeLauncher.Telemetry
