import McpeLauncher.Telemetry.Configuration

/-!
# The configuration after an exception

`Configuration::download` assigns to the configuration while it reads the settings. Here its
functions give the configuration that they leave behind, also when they throw; the calls that
return are those of `Configuration.download`.

An update that is not completed changes nothing only if everything that it assigns before the
exception is what the configuration had already.
-/

namespace McpeLauncher.Telemetry
open ByteLines

namespace Configuration.InPlace

/-- How a call ends, and the configuration that it leaves. -/
abbrev Outcome (α : Type) := Except ConfigurationError α × Configuration

def applyFromJson (c : Configuration) (json : Json) : Outcome Unit :=
  match ConfigurationProperty.set json "MAXEVENTSIZEINBYTES" with
  | .error e => (.error e, c)
  | .ok p =>
    let c := { c with maxEventSizeInBytes := p }
    match ConfigurationProperty.set json "MAXEVENTSPERPOST" with
    | .error e => (.error e, c)
    | .ok p =>
      let c := { c with maxEventsPerPost := p }
      match ConfigurationProperty.set json "QUEUEDRAININTERVAL" with
      | .error e => (.error e, c)
      | .ok p => (.ok (), { c with queueDrainInterval := p })

def importCached (c : Configuration) (cached : CachedConfiguration) : Outcome Unit :=
  applyFromJson { c with expires := cached.expires, downloaded := true } cached.data

/-- The end of `download` with the settings of a body. The cache is returned if nothing is
thrown. -/
def applyBody (L : JsonLibrary) (c : Configuration) (cache : Option FileConfigurationCache)
    (cached : CachedConfiguration) : Outcome (Bool × Option FileConfigurationCache) :=
  match applyFromJson c cached.data with
  | (.error e, c) => (.error e, c)
  | (.ok _, c) =>
    let c := { c with expires := cached.expires, downloaded := true }
    match c.writeIfCached L cache cached with
    | .error e => (.error e, c)
    | .ok cache => (.ok (true, cache), { c with downloadAttempt := 0 })

/-- The end of `download` with a cached configuration that was not modified. -/
def applyNotModified (L : JsonLibrary) (c : Configuration) (cache : Option FileConfigurationCache)
    (cached : CachedConfiguration) : Outcome (Bool × Option FileConfigurationCache) :=
  match importCached c cached with
  | (.error e, c) => (.error e, c)
  | (.ok _, c) =>
    match c.writeIfCached L cache cached with
    | .error e => (.error e, c)
    | .ok cache => (.ok (true, cache), c)

def onResponse (L : JsonLibrary) (requestStart : Int) (c : Configuration)
    (cache : Option FileConfigurationCache) (cached : CachedConfiguration)
    (response : HttpResponse) : Outcome (Bool × Option FileConfigurationCache) :=
  if response.status = 200 then
    match readBody L response.body with
    | .error e => (.error e, c)
    | .ok (settings, refreshInterval) =>
      applyBody L c cache
        { refreshInterval, expires := requestStart + refreshInterval * 1000, data := settings
          etag := response.findHeader "ETag" }
  else if response.status = 304 then
    applyNotModified L c cache
      { cached with expires := requestStart + cached.refreshInterval * 1000 }
  else
    let downloadAttempt := c.downloadAttempt + 1
    (.ok (false, cache), { c with downloadAttempt, downloadMinRetryTime :=
      requestStart + 1000 * 2 ^ min (downloadAttempt + 1) 8 })

def download (L : JsonLibrary) (x : DownloadContext) (c : Configuration)
    (cache : Option FileConfigurationCache) : Outcome (Bool × Option FileConfigurationCache) :=
  if x.requestStart < c.downloadMinRetryTime then (.ok (false, cache), c)
  else
    match readCached cache c.url with
    | .error e => (.error e, c)
    | .ok (some cached) =>
      if x.now < cached.expires then
        match importCached c cached with
        | (.error e, c) => (.error e, c)
        | (.ok _, c) => (.ok (true, cache), { c with downloadAttempt := 0 })
      else onResponse L x.requestStart c cache cached (x.response c.url (etagHeader cached))
    | .ok none =>
      onResponse L x.requestStart c cache ⟨0, x.uninitialised, "", .null⟩ (x.response c.url [])

variable {L : JsonLibrary} {c c' : Configuration} {cache : Option FileConfigurationCache}
  {json : Json}

/-! ## The calls that return -/

theorem applyFromJson_eq (c : Configuration) (json : Json) :
    c.applyFromJson json = (applyFromJson c json).1.map fun _ => (applyFromJson c json).2 := by
  unfold Configuration.applyFromJson applyFromJson
  cases ConfigurationProperty.set json "MAXEVENTSIZEINBYTES" with
  | error e => rfl
  | ok p =>
    cases ConfigurationProperty.set json "MAXEVENTSPERPOST" with
    | error e => rfl
    | ok p => cases ConfigurationProperty.set json "QUEUEDRAININTERVAL" <;> rfl

theorem importCached_eq (c : Configuration) (cached : CachedConfiguration) :
    c.importCached cached = (importCached c cached).1.map fun _ => (importCached c cached).2 :=
  applyFromJson_eq _ _

/-- The new entry does not depend on what was assigned to the configuration. -/
theorem writeIfCached_assigned (c : Configuration) (expires : Int) (cached : CachedConfiguration) :
    { c with expires, downloaded := true }.writeIfCached L cache cached =
      c.writeIfCached L cache cached := rfl

theorem onResponse_eq (L : JsonLibrary) (requestStart : Int) (c : Configuration)
    (cache : Option FileConfigurationCache) (cached : CachedConfiguration)
    (response : HttpResponse) : c.onResponse L requestStart cache cached response =
      (onResponse L requestStart c cache cached response).1.map fun r =>
        (r.1, (onResponse L requestStart c cache cached response).2, r.2) := by
  by_cases h200 : response.status = 200
  · rw [onResponse_of_ok h200, onResponse, if_pos h200]
    cases readBody L response.body with
    | error e => rfl
    | ok r =>
      obtain ⟨settings, refreshInterval⟩ := r
      dsimp only [bind, Except.bind, applyBody]
      rw [applyFromJson_eq]
      obtain ⟨r, c'⟩ := applyFromJson c settings
      cases r with
      | error e => rfl
      | ok u =>
        dsimp only [Except.map]
        rw [writeIfCached_assigned c']
        cases c'.writeIfCached L cache _ <;> rfl
  · rw [Configuration.onResponse, onResponse, if_neg h200, if_neg h200]
    split
    · dsimp only [bind, Except.bind, applyNotModified]
      rw [importCached_eq]
      obtain ⟨r, c'⟩ := importCached c
        { cached with expires := requestStart + cached.refreshInterval * 1000 }
      cases r with
      | error e => rfl
      | ok u =>
        dsimp only [Except.map]
        cases c'.writeIfCached L cache _ <;> rfl
    · rfl

/-- A call of `download` returns what it returns here, and leaves the same configuration. -/
theorem download_eq (L : JsonLibrary) (x : DownloadContext) (c : Configuration)
    (cache : Option FileConfigurationCache) : c.download L x cache =
      (download L x c cache).1.map fun r => (r.1, (download L x c cache).2, r.2) := by
  unfold Configuration.download download
  split
  · rfl
  · cases readCached cache c.url with
    | error e => rfl
    | ok found =>
      cases found with
      | none => exact onResponse_eq ..
      | some cached =>
        dsimp only [bind, Except.bind]
        split
        · rw [importCached_eq]
          obtain ⟨r, c'⟩ := importCached c cached
          cases r <;> rfl
        · exact onResponse_eq ..

/-! ## The assignments -/

/-- The configurations have the same values of the settings. -/
structure SameSettings (c c' : Configuration) : Prop where
  maxEventSizeInBytes : c'.maxEventSizeInBytes = c.maxEventSizeInBytes
  maxEventsPerPost : c'.maxEventsPerPost = c.maxEventsPerPost
  queueDrainInterval : c'.queueDrainInterval = c.queueDrainInterval

/-- They also have the same expiry and the same mark for being downloaded. -/
structure Same (c c' : Configuration) : Prop extends SameSettings c c' where
  expires : c'.expires = c.expires
  downloaded : c'.downloaded = c.downloaded

/-- The setting `name` says that the property is `p`. -/
def Says (json : Json) (name : String) (p : ConfigurationProperty) : Prop :=
  match json.find name with
  | none => p = .reset
  | some f => ∃ n, HasInt f n ∧ p = ⟨n, true⟩

/-- The settings up to the first that is no integer say what the configuration has. -/
def Keeps (c : Configuration) (json : Json) : Prop :=
  ∀ p, Says json "MAXEVENTSIZEINBYTES" p → p = c.maxEventSizeInBytes ∧
    ∀ p, Says json "MAXEVENTSPERPOST" p → p = c.maxEventsPerPost ∧
      ∀ p, Says json "QUEUEDRAININTERVAL" p → p = c.queueDrainInterval

theorem set_eq_ok : ConfigurationProperty.set json name = .ok p ↔ Says json name p := by
  unfold ConfigurationProperty.set Says
  cases json.find name with
  | none => exact ⟨fun h => (Except.ok.inj h).symm, fun h => congrArg Except.ok (Eq.symm h)⟩
  | some f =>
    simp only [bind_eq_ok, asInt_eq_ok, pure, Except.pure, Except.ok.injEq]
    exact exists_congr fun n => and_congr_right fun _ => eq_comm

/-- A setting that was read says one thing. -/
theorem forall_says_iff {P : ConfigurationProperty → Prop}
    (h : ConfigurationProperty.set json name = .ok p) : (∀ q, Says json name q → P q) ↔ P p := by
  simp only [← set_eq_ok, h, Except.ok.injEq, forall_eq']

theorem forall_says_of_error {P : ConfigurationProperty → Prop}
    (h : ConfigurationProperty.set json name = .error e) : ∀ q, Says json name q → P q := by
  intro q hq
  rw [← set_eq_ok, h] at hq
  cases hq

theorem sameSettings_applyFromJson (c : Configuration) (json : Json) :
    SameSettings c (applyFromJson c json).2 ↔ Keeps c json := by
  unfold applyFromJson Keeps
  cases hsize : ConfigurationProperty.set json "MAXEVENTSIZEINBYTES" with
  | error e => exact iff_of_true ⟨rfl, rfl, rfl⟩ (forall_says_of_error hsize)
  | ok p =>
    rw [forall_says_iff hsize]
    cases hevents : ConfigurationProperty.set json "MAXEVENTSPERPOST" with
    | error e =>
      exact ⟨fun h => ⟨h.maxEventSizeInBytes, forall_says_of_error hevents⟩,
        fun h => ⟨h.1, rfl, rfl⟩⟩
    | ok q =>
      rw [forall_says_iff hevents]
      cases hinterval : ConfigurationProperty.set json "QUEUEDRAININTERVAL" with
      | error e =>
        exact ⟨fun h => ⟨h.maxEventSizeInBytes, h.maxEventsPerPost, forall_says_of_error hinterval⟩,
          fun h => ⟨h.1, h.2.1, rfl⟩⟩
      | ok r =>
        rw [forall_says_iff hinterval]
        exact ⟨fun h => ⟨h.maxEventSizeInBytes, h.maxEventsPerPost, h.queueDrainInterval⟩,
          fun h => ⟨h.1, h.2.1, h.2.2⟩⟩

/-- The settings are assigned and nothing else. -/
theorem applyFromJson_frame (c : Configuration) (json : Json) :
    (applyFromJson c json).2.url = c.url ∧ (applyFromJson c json).2.expires = c.expires ∧
      (applyFromJson c json).2.downloaded = c.downloaded := by
  unfold applyFromJson
  cases ConfigurationProperty.set json "MAXEVENTSIZEINBYTES" with
  | error e => exact ⟨rfl, rfl, rfl⟩
  | ok p =>
    cases ConfigurationProperty.set json "MAXEVENTSPERPOST" with
    | error e => exact ⟨rfl, rfl, rfl⟩
    | ok p =>
      cases ConfigurationProperty.set json "QUEUEDRAININTERVAL" with
      | error e => exact ⟨rfl, rfl, rfl⟩
      | ok p => exact ⟨rfl, rfl, rfl⟩

theorem returns_applyFromJson : Returns (applyFromJson c json).1 ↔ SettingsOk json := by
  rw [← Configuration.returns_applyFromJson (c := c), applyFromJson_eq]
  cases (applyFromJson c json).1 with
  | error e => exact iff_of_false (not_returns_error e) (not_returns_error e)
  | ok u => exact iff_of_true (returns_ok u) (returns_ok _)

/-! ## Updates -/

/-- An update of the configuration: the entry with its settings and its expiry, whether that comes
from the cache, so that the expiry is assigned first, and whether the entry is written
afterwards. -/
structure Update where
  entry : CachedConfiguration
  fromCache : Bool
  written : Bool

namespace Update

/-- All of it is assigned and written. -/
def Completes (L : JsonLibrary) (cache : Option FileConfigurationCache) (url : String) (u : Update) :
    Prop :=
  SettingsOk u.entry.data ∧ (u.written = true → CacheOk L cache url u.entry)

/-- What is assigned, until a setting is no integer or else the entry cannot be written, is what the
configuration has. -/
def Unseen (u : Update) (c : Configuration) : Prop :=
  Keeps c u.entry.data ∧ (u.fromCache = true ∨ SettingsOk u.entry.data →
    u.entry.expires = c.expires ∧ true = c.downloaded)

end Update

/-- The response brings the update, if `cached` is what the cache gave before. -/
inductive Brings (L : JsonLibrary) (requestStart : Int) (cached : CachedConfiguration)
    (response : HttpResponse) : Update → Prop
  | ok {val interval : Json} {n : Int} (status : response.status = 200)
      (parse : L.parse response.body = some val)
      (find : val.find "refreshInterval" = some interval) (int : HasInt interval n) :
      Brings L requestStart cached response
        { entry := { refreshInterval := n * 60, expires := requestStart + n * 60 * 1000
                     data := (val.find "settings").getD .null, etag := response.findHeader "ETag" }
          fromCache := false, written := true }
  | notModified (status : response.status = 304) :
      Brings L requestStart cached response
        { entry := { cached with expires := requestStart + cached.refreshInterval * 1000 }
          fromCache := true, written := true }

/-- The call finds the update, in the cache or in the answer to its request. -/
inductive Finds (L : JsonLibrary) (x : DownloadContext) (c : Configuration)
    (cache : Option FileConfigurationCache) : Update → Prop
  | cached {cached : CachedConfiguration} (time : c.downloadMinRetryTime ≤ x.requestStart)
      (read : readCached cache c.url = .ok (some cached)) (fresh : x.now < cached.expires) :
      Finds L x c cache { entry := cached, fromCache := true, written := false }
  | revalidated {cached : CachedConfiguration} {u : Update}
      (time : c.downloadMinRetryTime ≤ x.requestStart)
      (read : readCached cache c.url = .ok (some cached)) (stale : cached.expires ≤ x.now)
      (brings : Brings L x.requestStart cached (x.response c.url (etagHeader cached)) u) :
      Finds L x c cache u
  | requested {u : Update} (time : c.downloadMinRetryTime ≤ x.requestStart)
      (read : readCached cache c.url = .ok none)
      (brings : Brings L x.requestStart ⟨0, x.uninitialised, "", .null⟩ (x.response c.url []) u) :
      Finds L x c cache u

/-- A call that does not return true leaves the configuration as it was. -/
def Atomic (c : Configuration) (o : Outcome (Bool × Option FileConfigurationCache)) : Prop :=
  (¬∃ cache, o.1 = .ok (true, cache)) → Same c o.2

theorem atomic_true (c c' : Configuration) (cache : Option FileConfigurationCache) :
    Atomic c (.ok (true, cache), c') := fun h => absurd ⟨cache, rfl⟩ h

theorem atomic_error : Atomic c (.error e, c') ↔ Same c c' :=
  ⟨fun h => h (by simp), fun h _ => h⟩

theorem Same.refl (c : Configuration) : Same c c := ⟨⟨rfl, rfl, rfl⟩, rfl, rfl⟩

/-- The end of an update: the entry is written after the assignments. -/
theorem atomic_write {c' : Configuration} (hurl : c'.url = c.url) (entry : CachedConfiguration)
    (c'' : Configuration) :
    Atomic c (match c'.writeIfCached L cache entry with
      | .error e => (.error e, c')
      | .ok cache => (.ok (true, cache), c'')) ↔ CacheOk L cache c.url entry ∨ Same c c' := by
  have hret : Returns (c'.writeIfCached L cache entry) ↔ CacheOk L cache c'.url entry :=
    returns_writeIfCached
  rw [hurl] at hret
  rw [← hret]
  cases c'.writeIfCached L cache entry with
  | error e => exact atomic_error.trans (or_iff_right (not_returns_error e)).symm
  | ok f => exact iff_of_true (atomic_true c c'' f) (.inl (returns_ok f))

/-- An update with a setting that is no integer does not complete. -/
theorem atomic_of_bad {u : Update} {url : String} (hbad : ¬SettingsOk u.entry.data)
    (hsame : Same c c' ↔ u.Unseen c) :
    Atomic c (.error e, c') ↔ u.Completes L cache url ∨ u.Unseen c :=
  (atomic_error.trans hsame).trans (or_iff_right fun hc => hbad hc.1).symm

theorem update_completes_iff {entry : CachedConfiguration} {url : String}
    (hgood : SettingsOk entry.data) :
    Update.Completes L cache url ⟨entry, fromCache, true⟩ ↔ CacheOk L cache url entry :=
  (and_iff_right hgood).trans (forall_prop_of_true rfl)

theorem same_importCached (c : Configuration) (cached : CachedConfiguration) (written : Bool) :
    Same c (importCached c cached).2 ↔ Update.Unseen ⟨cached, true, written⟩ c := by
  obtain ⟨-, hexpires, hdownloaded⟩ :=
    applyFromJson_frame { c with expires := cached.expires, downloaded := true } cached.data
  have hsettings := sameSettings_applyFromJson
    { c with expires := cached.expires, downloaded := true } cached.data
  constructor
  · intro h
    have hkeep := hsettings.mp ⟨h.maxEventSizeInBytes, h.maxEventsPerPost, h.queueDrainInterval⟩
    exact ⟨hkeep, fun _ => ⟨hexpires.symm.trans h.expires, hdownloaded.symm.trans h.downloaded⟩⟩
  · rintro ⟨hkeep, hrest⟩
    obtain ⟨h₁, h₂⟩ := hrest (.inl rfl)
    have hs := hsettings.mpr hkeep
    exact ⟨⟨hs.maxEventSizeInBytes, hs.maxEventsPerPost, hs.queueDrainInterval⟩,
      hexpires.trans h₁, hdownloaded.trans h₂⟩

/-- The update of a cached configuration that has not expired. -/
theorem atomic_unexpired (url : String) (entry : CachedConfiguration) :
    Atomic c (match importCached c entry with
      | (.error e, c) => (.error e, c)
      | (.ok _, c) => (.ok (true, cache), { c with downloadAttempt := 0 })) ↔
      Update.Completes L cache url ⟨entry, true, false⟩ ∨ Update.Unseen ⟨entry, true, false⟩ c := by
  have hsame := same_importCached c entry false
  have hret : Returns (importCached c entry).1 ↔ SettingsOk entry.data := returns_applyFromJson
  rcases himport : importCached c entry with ⟨r, c'⟩
  rw [himport] at hsame hret
  cases r with
  | error e =>
    have hbad : ¬SettingsOk entry.data := fun h => not_returns_error e (hret.mpr h)
    exact atomic_of_bad hbad hsame
  | ok u =>
    have hgood := hret.mp (returns_ok u)
    exact iff_of_true (atomic_true c _ cache) (.inl ⟨hgood, fun h => nomatch h⟩)

theorem atomic_applyNotModified (entry : CachedConfiguration) :
    Atomic c (applyNotModified L c cache entry) ↔
      Update.Completes L cache c.url ⟨entry, true, true⟩ ∨ Update.Unseen ⟨entry, true, true⟩ c := by
  have hsame := same_importCached c entry true
  have hret : Returns (importCached c entry).1 ↔ SettingsOk entry.data := returns_applyFromJson
  have hurl : (importCached c entry).2.url = c.url := (applyFromJson_frame _ _).1
  rw [applyNotModified]
  rcases himport : importCached c entry with ⟨r, c'⟩
  rw [himport] at hsame hret hurl
  cases r with
  | error e =>
    have hbad : ¬SettingsOk entry.data := fun h => not_returns_error e (hret.mpr h)
    exact atomic_of_bad hbad hsame
  | ok u =>
    have hgood := hret.mp (returns_ok u)
    exact (atomic_write hurl entry c').trans (or_congr (update_completes_iff hgood).symm hsame)

theorem atomic_applyBody (entry : CachedConfiguration) :
    Atomic c (applyBody L c cache entry) ↔
      Update.Completes L cache c.url ⟨entry, false, true⟩ ∨ Update.Unseen ⟨entry, false, true⟩ c := by
  have hsettings := sameSettings_applyFromJson c entry.data
  have hret : Returns (applyFromJson c entry.data).1 ↔ SettingsOk entry.data :=
    returns_applyFromJson
  obtain ⟨hurl, hexpires, hdownloaded⟩ := applyFromJson_frame c entry.data
  rw [applyBody]
  rcases happly : applyFromJson c entry.data with ⟨r, c'⟩
  rw [happly] at hsettings hret hurl hexpires hdownloaded
  cases r with
  | error e =>
    have hbad : ¬SettingsOk entry.data := fun h => not_returns_error e (hret.mpr h)
    have hsame : Same c c' ↔ Update.Unseen ⟨entry, false, true⟩ c := by
      refine ⟨fun h => ⟨hsettings.mp h.toSameSettings, ?_⟩,
        fun h => ⟨hsettings.mpr h.1, hexpires, hdownloaded⟩⟩
      rintro (h | h)
      · cases h
      · exact absurd h hbad
    exact atomic_of_bad hbad hsame
  | ok u =>
    have hgood := hret.mp (returns_ok u)
    have hassigned : { c' with expires := entry.expires, downloaded := true }.url = c.url := hurl
    have hsame : Same c { c' with expires := entry.expires, downloaded := true } ↔
        Update.Unseen ⟨entry, false, true⟩ c := by
      constructor
      · intro h
        exact ⟨hsettings.mp ⟨h.maxEventSizeInBytes, h.maxEventsPerPost, h.queueDrainInterval⟩,
          fun _ => ⟨h.expires, h.downloaded⟩⟩
      · rintro ⟨hkeep, hrest⟩
        obtain ⟨h₁, h₂⟩ := hrest (.inr hgood)
        have hs := hsettings.mpr hkeep
        exact ⟨⟨hs.maxEventSizeInBytes, hs.maxEventsPerPost, hs.queueDrainInterval⟩, h₁, h₂⟩
    exact (atomic_write hassigned entry _).trans (or_congr (update_completes_iff hgood).symm hsame)

theorem not_brings_of_error {cached : CachedConfiguration} (h200 : response.status = 200)
    (hbody : readBody L response.body = .error e) {u : Update} :
    ¬Brings L requestStart cached response u := by
  intro h
  cases h with
  | ok status parse find int =>
    have hread := readBody_eq_ok.mpr ⟨_, _, _, parse, find, int, rfl, rfl⟩
    rw [hbody] at hread
    cases hread
  | notModified status => omega

theorem brings_iff_of_body {cached : CachedConfiguration} {settings : Json} {m : Int}
    (h200 : response.status = 200) (hbody : readBody L response.body = .ok (settings, m))
    {u : Update} :
    Brings L requestStart cached response u ↔
      u = ⟨⟨requestStart + m * 1000, m, response.findHeader "ETag", settings⟩, false, true⟩ := by
  constructor
  · intro h
    cases h with
    | ok status parse find int =>
      have hread := readBody_eq_ok.mpr ⟨_, _, _, parse, find, int, rfl, rfl⟩
      rw [hbody, Except.ok.injEq, Prod.mk.injEq] at hread
      rw [← hread.1, ← hread.2]
    | notModified status => omega
  · rintro rfl
    obtain ⟨val, interval, n, hparse, hinterval, hn, rfl, rfl⟩ := readBody_eq_ok.mp hbody
    exact .ok h200 hparse hinterval hn

theorem brings_iff_of_notModified {cached : CachedConfiguration}
    (h304 : response.status = 304) {u : Update} :
    Brings L requestStart cached response u ↔
      u = ⟨{ cached with expires := requestStart + cached.refreshInterval * 1000 }, true, true⟩ := by
  constructor
  · intro h
    cases h with
    | ok status => omega
    | notModified => rfl
  · rintro rfl
    exact .notModified h304

theorem not_brings_of_status {cached : CachedConfiguration} (h200 : response.status ≠ 200)
    (h304 : response.status ≠ 304) {u : Update} : ¬Brings L requestStart cached response u := by
  intro h
  cases h with
  | ok status => exact h200 status
  | notModified status => exact h304 status

theorem atomic_onResponse {cached : CachedConfiguration} :
    Atomic c (onResponse L requestStart c cache cached response) ↔
      ∀ u, Brings L requestStart cached response u →
        u.Completes L cache c.url ∨ u.Unseen c := by
  unfold onResponse
  split
  · next h200 =>
    cases hbody : readBody L response.body with
    | error e =>
      exact iff_of_true (atomic_error.mpr (.refl c))
        fun u hu => absurd hu (not_brings_of_error h200 hbody)
    | ok r =>
      simp only [brings_iff_of_body h200 hbody, forall_eq]
      exact atomic_applyBody _
  · next h200 =>
    split
    · next h304 =>
      simp only [brings_iff_of_notModified h304, forall_eq]
      exact atomic_applyNotModified _
    · next h304 =>
      exact iff_of_true (fun _ => ⟨⟨rfl, rfl, rfl⟩, rfl, rfl⟩)
        fun u hu => absurd hu (not_brings_of_status h200 h304)

theorem not_finds_of_early (htime : x.requestStart < c.downloadMinRetryTime) {u : Update} :
    ¬Finds L x c cache u := by
  intro h
  cases h <;> omega

theorem not_finds_of_error (hread : readCached cache c.url = .error e) {u : Update} :
    ¬Finds L x c cache u := by
  intro h
  cases h with
  | cached time read | revalidated time read | requested time read =>
    rw [hread] at read
    cases read

theorem finds_iff_of_uncached (htime : c.downloadMinRetryTime ≤ x.requestStart)
    (hread : readCached cache c.url = .ok none) {u : Update} :
    Finds L x c cache u ↔
      Brings L x.requestStart ⟨0, x.uninitialised, "", .null⟩ (x.response c.url []) u := by
  constructor
  · intro h
    cases h with
    | cached time read | revalidated time read =>
      rw [hread] at read
      cases read
    | requested time read brings => exact brings
  · exact .requested htime hread

theorem finds_iff_of_fresh {cached : CachedConfiguration}
    (htime : c.downloadMinRetryTime ≤ x.requestStart)
    (hread : readCached cache c.url = .ok (some cached)) (hfresh : x.now < cached.expires)
    {u : Update} : Finds L x c cache u ↔ u = ⟨cached, true, false⟩ := by
  constructor
  · intro h
    cases h with
    | cached time read =>
      rw [hread] at read
      cases read
      rfl
    | revalidated time read stale =>
      rw [hread] at read
      cases read
      omega
    | requested time read =>
      rw [hread] at read
      cases read
  · rintro rfl
    exact .cached htime hread hfresh

theorem finds_iff_of_stale {cached : CachedConfiguration}
    (htime : c.downloadMinRetryTime ≤ x.requestStart)
    (hread : readCached cache c.url = .ok (some cached)) (hstale : cached.expires ≤ x.now)
    {u : Update} :
    Finds L x c cache u ↔
      Brings L x.requestStart cached (x.response c.url (etagHeader cached)) u := by
  constructor
  · intro h
    cases h with
    | cached time read fresh =>
      rw [hread] at read
      cases read
      omega
    | revalidated time read stale brings =>
      rw [hread] at read
      cases read
      exact brings
    | requested time read =>
      rw [hread] at read
      cases read
  · exact .revalidated htime hread hstale

/-- **A call of `download` that does not return true changes nothing** exactly if the update that it
finds is completed or not seen. -/
theorem download_atomic_iff (L : JsonLibrary) (x : DownloadContext) (c : Configuration)
    (cache : Option FileConfigurationCache) :
    ((¬∃ cache', (download L x c cache).1 = .ok (true, cache')) →
        Same c (download L x c cache).2) ↔
      ∀ u, Finds L x c cache u → u.Completes L cache c.url ∨ u.Unseen c := by
  change Atomic c (download L x c cache) ↔ _
  unfold download
  split
  · next htime =>
    exact iff_of_true (fun _ => .refl c) fun u hu => absurd hu (not_finds_of_early htime)
  · next htime =>
    have hstart : c.downloadMinRetryTime ≤ x.requestStart := by omega
    cases hread : readCached cache c.url with
    | error e =>
      exact iff_of_true (atomic_error.mpr (.refl c))
        fun u hu => absurd hu (not_finds_of_error hread)
    | ok found =>
      cases found with
      | none =>
        simp only [finds_iff_of_uncached hstart hread]
        exact atomic_onResponse
      | some cached =>
        dsimp only
        split
        · next hfresh =>
          simp only [finds_iff_of_fresh hstart hread hfresh, forall_eq]
          exact atomic_unexpired c.url cached
        · next hstale =>
          simp only [finds_iff_of_stale hstart hread (by omega)]
          exact atomic_onResponse

/-- The last of the settings is an array: the first is assigned and the call throws. -/
theorem download_not_atomic :
    let settings :=
      Json.object [("MAXEVENTSIZEINBYTES", .number 5), ("QUEUEDRAININTERVAL", .array [])]
    let L : JsonLibrary :=
      ⟨fun _ => some (.object [("refreshInterval", .number 1), ("settings", settings)]),
        fun _ => some []⟩
    let c : Configuration := ⟨"url", false, 0, 0, 0, .reset, .reset, .reset⟩
    let x : DownloadContext := ⟨0, 0, 0, fun _ _ => some ⟨200, [], []⟩⟩
    ¬((¬∃ cache', (download L x c none).1 = .ok (true, cache')) →
      Same c (download L x c none).2) := by
  intro settings L c x h
  have hthrows : (download L x c none).1 = .error .typeError := rfl
  have hsize : (download L x c none).2.maxEventSizeInBytes = ⟨5, true⟩ := rfl
  have hsame := (h (by simp [hthrows])).maxEventSizeInBytes
  rw [hsize] at hsame
  cases hsame

end Configuration.InPlace

end McpeLauncher.Telemetry
