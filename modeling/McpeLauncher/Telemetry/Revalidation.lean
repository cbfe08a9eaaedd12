import McpeLauncher.Telemetry.Configuration

/-!
# Revalidation of a configuration

A configuration that was downloaded is kept in the cache with its entity tag. When it has expired,
the next download sends the tag, and the server may answer that the configuration has not changed.
Between the two downloads the process may be restarted, and other configurations may be cached.
-/

namespace McpeLauncher.Telemetry
open ByteLines

/-- What was written is read back. -/
def JsonLibrary.RoundTrips (L : JsonLibrary) : Prop :=
  ∀ j text, L.dump j = some text → L.parse text = some j

namespace FileConfigurationCache

/-- The cache of a new process, which reads the file that was written last. -/
def reload (L : JsonLibrary) (cache : FileConfigurationCache) : Option FileConfigurationCache := do
  if cache.canOpen then
    let text ← L.dump cache.data
    let data ← L.parse text
    return { cache with data }
  else none

/-- What may happen to the cache between two downloads of a configuration. -/
inductive Later (L : JsonLibrary) (url : String) :
    FileConfigurationCache → FileConfigurationCache → Prop
  | refl (cache : FileConfigurationCache) : Later L url cache cache
  | reload : cache.reload L = some cache₁ → Later L url cache₁ cache₂ → Later L url cache cache₂
  | write : url' ≠ url → cache.writeConfigToCache L url' config = .ok cache₁ →
    Later L url cache₁ cache₂ → Later L url cache cache₂

end FileConfigurationCache

namespace Configuration

/-- The headers of the request that `download` sends, if it sends one. -/
def requestHeaders (x : DownloadContext) (c : Configuration)
    (cache : Option FileConfigurationCache) :
    Except ConfigurationError (Option Headers) := do
  if x.requestStart < c.downloadMinRetryTime then return none
  else
    match ← readCached cache c.url with
    | some cached => if x.now < cached.expires then return none else return some (etagHeader cached)
    | none => return some []

/-- The three values of a configuration. -/
def values (c : Configuration) :
    ConfigurationProperty × ConfigurationProperty × ConfigurationProperty :=
  (c.maxEventSizeInBytes, c.maxEventsPerPost, c.queueDrainInterval)

/-- The next download sends the tag `v`. If the server answers that nothing has changed, the values
are those of the earlier download, the time is counted from this request, and the entry is in the
cache again. -/
structure Revalidates (L : JsonLibrary) (v : String) (earlier : Configuration)
    (stored : CachedConfiguration)
    (x : DownloadContext) (c : Configuration) (cache : FileConfigurationCache) : Prop where
  header : c.requestHeaders x (some cache) = .ok (some [("If-None-Match", v)])
  restored : ∀ headers response, c.requestHeaders x (some cache) = .ok (some headers) →
    x.send c.url headers = some response → response.status = 304 →
    ∃ c' cache', c.download L x (some cache) = .ok (true, c', some cache') ∧
      c'.values = earlier.values ∧ c'.expires = x.requestStart + stored.refreshInterval * 1000 ∧
      cache'.readFromCache c.url = .ok (some { stored with expires := c'.expires })

end Configuration

/-- The name of the header with the entity tag; the case does not matter in HTTP. -/
def isETag (name : String) : Bool := name.toList.map Char.toLower == "etag".toList

/-- A configuration is downloaded with the tag `v`, which the server sends under `name`, and its
entry is in the cache. Later it has expired and is downloaded again, possibly by another process. -/
structure TwoDownloads (L : JsonLibrary) (name v : String) (x₁ x₂ : DownloadContext)
    (c c₁ c₂ : Configuration) (cache₁ cache₂ : FileConfigurationCache)
    (stored : CachedConfiguration) :
    Prop where
  first : ∃ cache headers response b, c.requestHeaders x₁ (some cache) = .ok (some headers) ∧
    x₁.send c.url headers = some response ∧ response.status = 200 ∧
    response.headers.filter (isETag ·.1) = [(name, v)] ∧
    c.download L x₁ (some cache) = .ok (b, c₁, some cache₁)
  stored : cache₁.readFromCache c.url = .ok (some stored)
  later : FileConfigurationCache.Later L c.url cache₁ cache₂
  url : c₂.url = c.url
  retry : c₂.downloadMinRetryTime ≤ x₂.requestStart
  expired : c₁.expires ≤ x₂.now

/-! ## The cache -/

namespace FileConfigurationCache

variable {L : JsonLibrary} {cache cache' : FileConfigurationCache} {url : String}
  {config : CachedConfiguration}

/-- The members of an entry. -/
def fields (config : CachedConfiguration) : List (String × Json) :=
  [("expires", .number config.expires), ("refreshInterval", .number config.refreshInterval),
    ("etag", .string config.etag), ("data", config.data)]

theorem readFromCache_of_fields {en₀ en : Json} (hen : en₀.setAll (fields config) = some en)
    (hfind : cache.data.find url = some en) : cache.readFromCache url = .ok (some config) := by
  have hinterval : en.find "refreshInterval" = some (.number config.refreshInterval) := by
    rw [Json.find_setAll hen]
    rfl
  have hexpires : en.find "expires" = some (.number config.expires) := by
    rw [Json.find_setAll hen]
    rfl
  have hetag : en.find "etag" = some (.string config.etag) := by
    rw [Json.find_setAll hen]
    rfl
  have hdata : en.find "data" = some config.data := by
    rw [Json.find_setAll hen]
    rfl
  simp only [readFromCache, hfind, Json.valueInt_of_find hinterval, Json.valueInt_of_find hexpires,
    Json.value_of_find hetag, Json.value_of_find hdata]
  rfl

/-- A document with a new entry has this entry, and the other ones that it had. -/
theorem find_document {data : Json} (h : cache.document url config = some data) :
    (∃ en₀ en : Json, en₀.setAll (fields config) = some en ∧ data.find url = some en) ∧
      ∀ url' ≠ url, data.find url' = cache.data.find url' := by
  obtain ⟨⟨en₀, data₀⟩, hindex, h⟩ := Option.bind_eq_some_iff.mp h
  obtain ⟨en, hen, hset⟩ := Option.bind_eq_some_iff.mp h
  refine ⟨⟨en₀, en, hen, ?_⟩, fun url' hne => ?_⟩
  · rw [Json.find_set hset, if_pos rfl]
  · rw [Json.find_set hset, if_neg hne, (Json.index_eq_some hindex).2 url' hne]

theorem writeConfigToCache_eq_ok (h : cache.writeConfigToCache L url config = .ok cache') :
    ∃ data, cache.document url config = some data ∧ cache' = { cache with data } := by
  obtain ⟨data, hdata, h⟩ := bind_eq_ok.mp h
  refine ⟨data, typed_eq_ok.mp hdata, ?_⟩
  split at h
  next =>
    obtain ⟨_, _, h⟩ := bind_eq_ok.mp h
    cases h
    rfl
  next =>
    cases h
    rfl

theorem readFromCache_write (h : cache.writeConfigToCache L url config = .ok cache') :
    cache'.readFromCache url = .ok (some config) := by
  obtain ⟨data, hdata, rfl⟩ := writeConfigToCache_eq_ok h
  obtain ⟨⟨en₀, en, hen, hfind⟩, -⟩ := find_document hdata
  exact readFromCache_of_fields hen hfind

/-- The entry is still there when the next download begins. -/
theorem Later.readFromCache_eq (hL : L.RoundTrips) (h : Later L url cache cache') :
    cache'.readFromCache url = cache.readFromCache url := by
  induction h with
  | refl cache => rfl
  | @reload cache cache₁ cache₂ hreload _ ih =>
    rw [ih]
    rw [FileConfigurationCache.reload] at hreload
    split at hreload
    next =>
      obtain ⟨text, htext, hreload⟩ := Option.bind_eq_some_iff.mp hreload
      obtain ⟨data, hdata, hreload⟩ := Option.bind_eq_some_iff.mp hreload
      cases hreload
      cases (hL _ _ htext).symm.trans hdata
      rfl
    next => cases hreload
  | write hne hwrite _ ih =>
    rw [ih]
    obtain ⟨data, hdata, rfl⟩ := writeConfigToCache_eq_ok hwrite
    have hfind := (find_document hdata).2 url (Ne.symm hne)
    simp only [readFromCache, hfind]

/-- An entry that was read can be written again, with another time. -/
theorem exists_document (h : cache.readFromCache url = .ok (some config))
    (config' : CachedConfiguration) :
    ∃ data, cache.document url config' = some data := by
  rw [readFromCache] at h
  split at h
  next => cases h
  next en hfind =>
    obtain ⟨refreshInterval, hinterval, -⟩ := bind_eq_ok.mp h
    obtain ⟨members, rfl⟩ := Json.isObject_of_value (typed_eq_ok.mp hinterval)
    obtain ⟨entries, hentries⟩ := Json.isObject_of_find hfind
    obtain ⟨members', hmembers'⟩ := Json.exists_setAll_object members (fields config')
    have hindex : cache.data.index url = some (.object members, cache.data) := by
      rw [Json.index, hfind]
    refine ⟨.object (Json.assign entries url (.object members')), ?_⟩
    rw [document, hindex]
    show ((Json.object members).setAll (fields config') >>= fun en => cache.data.set url en) = _
    rw [hmembers', hentries]
    rfl

end FileConfigurationCache

/-! ## Headers -/

/-- A tag is found only under the name that the code looks for. -/
theorem HttpResponse.findHeader_eTag {response : HttpResponse} {name v : String}
    (h : response.headers.filter (isETag ·.1) = [(name, v)]) :
    response.findHeader "ETag" = if name = "ETag" then v else "" := by
  have hfind : response.headers.find? (·.1 = "ETag") = [(name, v)].find? (·.1 = "ETag") := by
    rw [← h, List.find?_filter]
    congr 1
    funext header
    by_cases hname : header.1 = "ETag"
    · rw [hname]
      rfl
    · simp [hname]
  rw [findHeader, hfind, List.find?_singleton]
  by_cases hname : name = "ETag"
  · simp [hname]
  · simp [hname]

theorem quoted_ne (v : String) : "\"" ++ v ++ "\"" ≠ v := by
  intro h
  have hlength := congrArg String.length h
  rw [String.length_append, String.length_append] at hlength
  have hquote : "\"".length = 1 := by decide
  omega

namespace Configuration

variable {L : JsonLibrary} {x : DownloadContext} {c c' : Configuration}

/-! ## Downloads -/

/-- `download` goes on with the response to the request that it sends. -/
theorem download_of_requestHeaders {cache : Option FileConfigurationCache} {headers : Headers}
    (h : c.requestHeaders x cache = .ok (some headers)) :
    ∃ cached, c.download L x cache =
        c.onResponse L x.requestStart cache cached (x.response c.url headers) ∧
      ∀ found, readCached cache c.url = .ok (some found) → cached = found := by
  rw [requestHeaders] at h
  rw [download]
  split at h
  next => cases h
  next hretry =>
    obtain ⟨found, hfound, h⟩ := bind_eq_ok.mp h
    rw [if_neg hretry, hfound]
    cases found with
    | some cached =>
      dsimp only at h
      split at h
      next => cases h
      next hfresh =>
        cases h
        refine ⟨cached, if_neg hfresh, fun found hsome => ?_⟩
        cases hsome
        rfl
    | none =>
      cases h
      exact ⟨_, rfl, fun found hsome => nomatch hsome⟩

/-- The values depend on the settings only. -/
theorem values_applyFromJson {c₁ c₂ c₁' c₂' : Configuration} {json : Json}
    (h₁ : c₁.applyFromJson json = .ok c₁') (h₂ : c₂.applyFromJson json = .ok c₂') :
    c₂'.values = c₁'.values := by
  obtain ⟨p₁, hp₁, h₁⟩ := bind_eq_ok.mp h₁
  obtain ⟨q₁, hq₁, h₁⟩ := bind_eq_ok.mp h₁
  obtain ⟨r₁, hr₁, h₁⟩ := bind_eq_ok.mp h₁
  obtain ⟨p₂, hp₂, h₂⟩ := bind_eq_ok.mp h₂
  obtain ⟨q₂, hq₂, h₂⟩ := bind_eq_ok.mp h₂
  obtain ⟨r₂, hr₂, h₂⟩ := bind_eq_ok.mp h₂
  cases h₁
  cases h₂
  cases hp₁.symm.trans hp₂
  cases hq₁.symm.trans hq₂
  cases hr₁.symm.trans hr₂
  rfl

/-- What a new configuration leaves in the cache. -/
theorem onResponse_ok {cache cache' : FileConfigurationCache} {cached : CachedConfiguration}
    {response : HttpResponse} {start : Int} {b : Bool} (hstatus : response.status = 200)
    (h : c.onResponse L start (some cache) cached response = .ok (b, c', some cache')) :
    ∃ entry c₁, cache'.readFromCache c.url = .ok (some entry) ∧
      entry.etag = response.findHeader "ETag" ∧
      c'.expires = entry.expires ∧ c.applyFromJson entry.data = .ok c₁ ∧ c'.values = c₁.values := by
  rw [onResponse, if_pos hstatus] at h
  obtain ⟨⟨settings, val⟩, -, h⟩ := bind_eq_ok.mp h
  obtain ⟨⟨interval, val'⟩, -, h⟩ := bind_eq_ok.mp h
  obtain ⟨n, -, h⟩ := bind_eq_ok.mp h
  obtain ⟨c₁, happly, h⟩ := bind_eq_ok.mp h
  obtain ⟨written, hwrite, h⟩ := bind_eq_ok.mp h
  obtain ⟨cache₁, hcache₁, hsome⟩ := bind_eq_ok.mp hwrite
  cases hsome
  cases h
  have hread := FileConfigurationCache.readFromCache_write hcache₁
  rw [url_applyFromJson happly] at hread
  exact ⟨_, c₁, hread, rfl, rfl, happly, rfl⟩

theorem expires_applyFromJson {json : Json} (h : c.applyFromJson json = .ok c') :
    c'.expires = c.expires := by
  obtain ⟨p, -, h⟩ := bind_eq_ok.mp h
  obtain ⟨q, -, h⟩ := bind_eq_ok.mp h
  obtain ⟨r, -, h⟩ := bind_eq_ok.mp h
  cases h
  rfl

/-- What happens if the configuration has not changed. -/
theorem onResponse_notModified {cache : FileConfigurationCache} {cached : CachedConfiguration}
    {response : HttpResponse} {start : Int} (hstatus : response.status = 304)
    {c₀ c₁ : Configuration} (happly : c₀.applyFromJson cached.data = .ok c₁)
    (hwrite : cache.WriteOk L c.url
        { cached with expires := start + cached.refreshInterval * 1000 }) :
    ∃ c' cache', c.onResponse L start (some cache) cached response = .ok (true, c', some cache') ∧
      c'.values = c₁.values ∧ c'.expires = start + cached.refreshInterval * 1000 ∧
      cache'.readFromCache c.url = .ok (some { cached with expires := c'.expires }) := by
  have hsettings : SettingsOk cached.data := returns_applyFromJson.mp ⟨c₁, happly⟩
  have himport : Returns
      (c.importCached { cached with expires := start + cached.refreshInterval * 1000 }) :=
    returns_importCached.mpr hsettings
  obtain ⟨c', hc'⟩ := himport
  have hurl := url_importCached hc'
  have hexpires : c'.expires = start + cached.refreshInterval * 1000 := expires_applyFromJson hc'
  obtain ⟨cache', hcache'⟩ := FileConfigurationCache.returns_writeConfigToCache.mpr hwrite
  refine ⟨c', cache', ?_, values_applyFromJson happly hc', hexpires, ?_⟩
  · have hne : ¬ response.status = 200 := by omega
    rw [onResponse, if_neg hne, if_pos hstatus]
    refine bind_eq_ok.mpr ⟨c', hc', bind_eq_ok.mpr ⟨some cache', ?_, rfl⟩⟩
    refine bind_eq_ok.mpr ⟨cache', ?_, rfl⟩
    rw [hurl]
    exact hcache'
  · rw [hexpires]
    exact FileConfigurationCache.readFromCache_write hcache'

/-! ## Two downloads -/

/-- The second request has the tag in quotes. -/
theorem requestHeaders_expired {cache : FileConfigurationCache} {stored : CachedConfiguration}
    (hread : cache.readFromCache c.url = .ok (some stored))
    (hretry : c.downloadMinRetryTime ≤ x.requestStart)
    (hexpired : stored.expires ≤ x.now) :
    c.requestHeaders x (some cache) = .ok (some (etagHeader stored)) := by
  have hretry' : ¬ x.requestStart < c.downloadMinRetryTime := by omega
  have hexpired' : ¬ x.now < stored.expires := by omega
  rw [requestHeaders, if_neg hretry', readCached, hread]
  exact if_neg hexpired'

/-- **The next download sends the tag back only if it is empty and was not found**: its name was not
written as `ETag`, and the empty text in quotes is what the server has sent. For all other tags the
quotes are too many. -/
theorem revalidates_iff {name v : String} {x₁ x₂ : DownloadContext} {c₁ c₂ : Configuration}
    {cache₁ cache₂ : FileConfigurationCache} {stored : CachedConfiguration} (hL : L.RoundTrips)
    (hdump : ∀ data, cache₂.document c.url
        { stored with expires := x₂.requestStart + stored.refreshInterval * 1000 } = some data →
      cache₂.canOpen = true → ∃ text, L.dump data = some text)
    (h : TwoDownloads L name v x₁ x₂ c c₁ c₂ cache₁ cache₂ stored) :
    Revalidates L v c₁ stored x₂ c₂ cache₂ ↔ name ≠ "ETag" ∧ v = "\"\"" := by
  obtain ⟨cache, headers, response, b, hsent, hresponse, hstatus, htag, hdownload⟩ := h.first
  obtain ⟨cached, heq, -⟩ := download_of_requestHeaders (L := L) hsent
  rw [DownloadContext.response, hresponse, Option.getD_some] at heq
  obtain ⟨entry, c₀, hread, hetag, hexp, happly, hvalues⟩ :=
    onResponse_ok hstatus (heq.symm.trans hdownload)
  cases h.stored.symm.trans hread
  have hread₂ : cache₂.readFromCache c₂.url = .ok (some stored) := by
    rw [h.url, h.later.readFromCache_eq hL, h.stored]
  have hheaders := requestHeaders_expired hread₂ h.retry (hexp ▸ h.expired)
  have hfound := HttpResponse.findHeader_eTag htag
  constructor
  · intro hr
    have hquoted : etagHeader stored = [("If-None-Match", v)] :=
      Option.some.inj (Except.ok.inj (hheaders.symm.trans hr.header))
    have hv : "\"" ++ stored.etag ++ "\"" = v := congrArg Prod.snd (List.cons.inj hquoted).1
    rw [hetag, hfound] at hv
    split at hv
    next => exact absurd hv (quoted_ne v)
    next hname => exact ⟨hname, hv.symm⟩
  · rintro ⟨hname, rfl⟩
    rw [if_neg hname] at hfound
    constructor
    · rw [hheaders, etagHeader, hetag, hfound]
      rfl
    · intro headers' response' hheaders' hresponse' hstatus'
      obtain ⟨cached', heq', hcached'⟩ := download_of_requestHeaders (L := L) hheaders'
      cases hcached' stored hread₂
      rw [DownloadContext.response, hresponse', Option.getD_some] at heq'
      obtain ⟨data, hdata⟩ := FileConfigurationCache.exists_document hread₂
        { stored with expires := x₂.requestStart + stored.refreshInterval * 1000 }
      have hwrite : cache₂.WriteOk L c₂.url
          { stored with expires := x₂.requestStart + stored.refreshInterval * 1000 } :=
        ⟨data, hdata, hdump data (h.url ▸ hdata)⟩
      obtain ⟨c', cache', hok, hvalues', hrest⟩ := onResponse_notModified hstatus' happly hwrite
      exact ⟨c', cache', heq'.trans hok, hvalues'.trans hvalues.symm, hrest⟩

end Configuration

/-- The bytes of a text in ASCII. -/
def asciiBytes (text : String) : Bytes := text.toList.map fun c => UInt8.ofNat c.toNat

/-- A configuration without settings, which is refreshed every minute. -/
def HttpResponse.everyMinute : HttpResponse where
  status := 200
  headers := [("ETag", "\"x\"")]
  body := asciiBytes "\x7b\"refreshInterval\":1\x7d"

/-- The document with its entry, which expires at the given time. -/
def everyMinuteDocument (expires : Int) : Json :=
  .object [("u:", .object [("expires", .number expires), ("refreshInterval", .number 60),
    ("etag", .string "\"x\""), ("data", .null)])]

def everyMinuteText (expires : String) : Bytes :=
  asciiBytes ("\x7b\"u:\":\x7b\"data\":null,\"etag\":\"\\\"x\\\"\",\"expires\":" ++ expires ++
    ",\"refreshInterval\":60\x7d\x7d")

/-- The library on the body of the response, and on the documents after a download at the time 0 and
another one at the time 70000. -/
def JsonLibrary.everyMinute : JsonLibrary where
  parse text :=
    if text = HttpResponse.everyMinute.body then some (.object [("refreshInterval", .number 1)])
    else if text = everyMinuteText "60000" then some (everyMinuteDocument 60000)
    else if text = everyMinuteText "130000" then some (everyMinuteDocument 130000)
    else none
  dump
    | .object [("u:", .object [("expires", .number 60000), ("refreshInterval", .number 60),
        ("etag", .string "\"x\""), ("data", .null)])] => some (everyMinuteText "60000")
    | .object [("u:", .object [("expires", .number 130000), ("refreshInterval", .number 60),
        ("etag", .string "\"x\""), ("data", .null)])] => some (everyMinuteText "130000")
    | _ => none

theorem JsonLibrary.roundTrips_everyMinute : JsonLibrary.everyMinute.RoundTrips := by
  have hbody : everyMinuteText "60000" ≠ HttpResponse.everyMinute.body := by decide +kernel
  have hbody' : everyMinuteText "130000" ≠ HttpResponse.everyMinute.body := by decide +kernel
  have hother : everyMinuteText "130000" ≠ everyMinuteText "60000" := by
    intro h
    have hlen := congrArg List.length h
    simp only [everyMinuteText, asciiBytes, List.length_map, String.length_toList,
      String.length_append]
      at hlen
    have hsix : "130000".length = 6 := by decide
    have hfive : "60000".length = 5 := by decide
    omega
  intro j text h
  simp only [everyMinute] at h ⊢
  split at h
  next =>
    rw [← Option.some.inj h, if_neg hbody, if_pos rfl]
    rfl
  next =>
    rw [← Option.some.inj h, if_neg hbody', if_neg hother, if_pos rfl]
    rfl
  next => cases h

namespace Configuration

/-- A configuration with a short address. -/
def short : Configuration := { androidLL with url := "u:" }

/-- The configuration after the first download, and what is in the cache. -/
def everyMinute : Configuration := { short with downloaded := true, expires := 60000 }

def everyMinuteCache : FileConfigurationCache := ⟨everyMinuteDocument 60000, true⟩

def everyMinuteStored : CachedConfiguration := ⟨60000, 60, "\"x\"", .null⟩

/-- The second download, for which the server answers that nothing has changed. -/
def notModified : DownloadContext := ⟨70000, 70000, 0, fun _ _ => some ⟨304, [], []⟩⟩

theorem twoDownloads_everyMinute :
    TwoDownloads .everyMinute "ETag" "\"x\"" ⟨0, 0, 0, fun _ _ => some .everyMinute⟩
      notModified short
      everyMinute short everyMinuteCache everyMinuteCache everyMinuteStored where
  first := ⟨⟨.object [], true⟩, [], .everyMinute, true, rfl, rfl, rfl, rfl, rfl⟩
  stored := rfl
  later := .refl _
  url := rfl
  retry := by decide
  expired := by decide

theorem revalidates_everyMinute :
    Revalidates .everyMinute "\"x\"" everyMinute everyMinuteStored notModified short
      everyMinuteCache ↔
      "ETag" ≠ "ETag" ∧ "\"x\"" = "\"\"" := by
  refine revalidates_iff JsonLibrary.roundTrips_everyMinute (fun data hdata _ => ?_)
    twoDownloads_everyMinute
  cases hdata
  exact ⟨_, rfl⟩

/-- The tag `"x"` is sent with two quotes on each side. -/
theorem not_revalidates_quoted :
    ∃ x₁ c cache₁, TwoDownloads .everyMinute "ETag" "\"x\"" x₁ notModified c
      everyMinute short cache₁
        everyMinuteCache everyMinuteStored ∧
      ¬ Revalidates .everyMinute "\"x\"" everyMinute everyMinuteStored notModified short
        everyMinuteCache := by
  refine ⟨_, _, _, twoDownloads_everyMinute, fun h => ?_⟩
  have hsent : short.requestHeaders notModified (some everyMinuteCache) =
      .ok (some [("If-None-Match", "\"\"x\"\"")]) := rfl
  have hsame := congrArg Prod.snd
    (List.cons.inj (Option.some.inj (Except.ok.inj (hsent.symm.trans h.header)))).1
  exact absurd hsame (by decide)

end Configuration

end McpeLauncher.Telemetry
