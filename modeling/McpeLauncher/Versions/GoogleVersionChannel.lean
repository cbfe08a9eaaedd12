import Mathlib.Data.List.Infix
import McpeLauncher.Lib.Runs

/-!
# The license gate

`GoogleVersionChannel` asks the Play API for the latest version and then for a license. The flag
`m_hasVerifiedLicense` is written by the status, by the results of both requests and by failures,
while the trial mode is switched and requests of either mode are still on their way.
-/

namespace McpeLauncher.Versions

inductive ChannelStatus
  | notReady
  | pending
  | failed
  | succeeded
  deriving DecidableEq

inductive LicenceStatus
  | notReady
  | pending
  | failed
  | succeeded
  | offline
  deriving DecidableEq

inductive ApiStatus
  | notReady
  | pending
  | failed
  | succeeded
  deriving DecidableEq

/-- What the app info says of a version. -/
structure LatestVersion where
  name : List Char
  code : Int
  isBeta : Bool
  deriving DecidableEq

/-- The text that is stored for a version with a license: `char` keeps the low byte of the code. -/
def LatestVersion.id (v : LatestVersion) : List Char :=
  v.name ++ [Char.ofNat (v.code % 256).toNat, Char.ofNat (if v.isBeta then 1 else 0)]

/-- `playApi` is the status of the API behind the pointer; `latestVersionId` and `saved` are in the
settings. -/
structure GoogleVersionChannel where
  playApi : Option ApiStatus
  isChromeOS : Bool
  latest : LatestVersion
  saved : LatestVersion
  latestVersionId : List Char
  hasVerifiedLicense : Bool
  trialMode : Bool
  status : ChannelStatus
  licenseStatus : LicenceStatus
  deriving DecidableEq

namespace GoogleVersionChannel

/-- The constructor, from the settings. -/
def ofSettings (saved : LatestVersion) (latestVersionId : List Char) (isChromeOS : Bool) :
    GoogleVersionChannel where
  playApi := none
  isChromeOS
  latest := saved
  saved
  latestVersionId
  hasVerifiedLicense := false
  trialMode := false
  status := .notReady
  licenseStatus := .notReady

def pkgName (trialMode : Bool) : String :=
  if trialMode then "com.mojang.minecrafttrialpe" else "com.mojang.minecraftpe"

def onApiReady (c : GoogleVersionChannel) : GoogleVersionChannel := { c with status := .pending }

def onStatusChanged (c : GoogleVersionChannel) : GoogleVersionChannel :=
  let status := c.playApi.getD .failed
  if status ≠ .succeeded then
    { c with
      hasVerifiedLicense := c.trialMode
      licenseStatus := if status = .failed then (if c.trialMode then .offline else .failed)
        else .notReady
      status := if status = .failed then .failed else .notReady }
  else c.onApiReady

def setPlayApi (c : GoogleVersionChannel) (value : Option ApiStatus) : GoogleVersionChannel :=
  onStatusChanged { c with licenseStatus := .notReady, status := .notReady, playApi := value }

def setTrialMode (c : GoogleVersionChannel) (trialMode : Bool) : GoogleVersionChannel :=
  if c.trialMode ≠ trialMode then onStatusChanged { c with trialMode } else c

/-- What the handler does for the package of the mode; it then asks for the license of `v`. -/
def onAppInfoReceived (c : GoogleVersionChannel) (v : LatestVersion) : GoogleVersionChannel :=
  { c with latest := v, saved := v, licenseStatus := .pending, status := .succeeded }

/-- The callback of `validateLicense`, with the mode of the time when it was asked for. -/
def onValidated (c : GoogleVersionChannel) (trialMode hasVerifiedLicense : Bool) :
    GoogleVersionChannel :=
  if !trialMode && c.isChromeOS && !hasVerifiedLicense then
    { c with isChromeOS := false, licenseStatus := .notReady, status := .notReady }
  else if trialMode then
    { c with
      hasVerifiedLicense := true
      licenseStatus := if hasVerifiedLicense then .succeeded else .offline }
  else
    { c with
      hasVerifiedLicense := c.hasVerifiedLicense || hasVerifiedLicense
      licenseStatus := if hasVerifiedLicense then .succeeded else .failed
      latestVersionId := if hasVerifiedLicense then c.latest.id else [] }

/-- `errorMessage.contains("401") || errorMessage.contains("403")`. -/
def isUnauthorized (errorMessage : List Char) : Bool :=
  ['4', '0', '1'] <:+: errorMessage || ['4', '0', '3'] <:+: errorMessage

/-- What the handler does for the package of the mode. -/
def onAppInfoFailed (c : GoogleVersionChannel) (errorMessage : List Char) : GoogleVersionChannel :=
  if isUnauthorized errorMessage then
    { c with
      licenseStatus := .failed
      hasVerifiedLicense := false
      latestVersionId := if c.trialMode then c.latestVersionId else []
      status := .failed }
  else if c.trialMode || c.latestVersionId = c.latest.id then
    { c with hasVerifiedLicense := true, licenseStatus := .offline, status := .failed }
  else { c with status := .failed }

end GoogleVersionChannel

/-- A license that was asked for: in which mode, and for which version. -/
structure Validation where
  trialMode : Bool
  version : LatestVersion
  deriving DecidableEq

/-- The channel with the requests that are on their way, and what the claim about the flag refers
to: the result of the last completed validation of the full version, whether the last app info
request failed without 401 and 403, and the version whose validation wrote the stored text. -/
structure LicenseGate where
  channel : GoogleVersionChannel
  pending : List Validation
  lastFull : Option Bool
  lastFailed : Bool
  writer : Option LatestVersion
  deriving DecidableEq

inductive ChannelEvent
  | setTrialMode (trialMode : Bool)
  | setPlayApi (value : Option ApiStatus)
  | setChromeOS (isChromeOS : Bool)
  | statusChanged (status : ApiStatus)
  | ready
  | appInfoReceived (packageName : String) (version : LatestVersion)
  | appInfoFailed (packageName : String) (errorMessage : List Char)
  | validated (i : Nat) (hasVerifiedLicense : Bool)
  deriving DecidableEq

namespace LicenseGate
open GoogleVersionChannel

/-- The start, with what earlier runs left in the settings. -/
def start (saved : LatestVersion) (latestVersionId : List Char) (writer : Option LatestVersion)
    (isChromeOS : Bool) : LicenseGate :=
  ⟨ofSettings saved latestVersionId isChromeOS, [], none, false, writer⟩

/-- The callback of the validation `p`. The one of the full version uses the API, which has to be
there. -/
def validated (s : LicenseGate) (p : Validation) (rest : List Validation) (hasVerifiedLicense : Bool) :
    Option LicenseGate :=
  let s := { s with pending := rest }
  if p.trialMode then
    some { s with channel := s.channel.onValidated true hasVerifiedLicense }
  else if s.channel.playApi = none then none
  else
    some { s with
      channel := s.channel.onValidated false hasVerifiedLicense
      lastFull := some hasVerifiedLicense
      writer := if hasVerifiedLicense then some p.version
        else if s.channel.isChromeOS then s.writer else none }

/-- The signals of an API come only from one that is set. -/
def step (s : LicenseGate) : ChannelEvent → Option LicenseGate
  | .setTrialMode trialMode => some { s with channel := s.channel.setTrialMode trialMode }
  | .setPlayApi value => some { s with channel := s.channel.setPlayApi value }
  | .setChromeOS isChromeOS => some { s with channel := { s.channel with isChromeOS } }
  | .statusChanged status =>
    if s.channel.playApi = none then none
    else some { s with channel := onStatusChanged { s.channel with playApi := some status } }
  | .ready =>
    if s.channel.playApi = none then none else some { s with channel := s.channel.onApiReady }
  | .appInfoReceived packageName version =>
    if s.channel.playApi = none then none
    else if packageName = pkgName s.channel.trialMode then
      some { s with
        channel := s.channel.onAppInfoReceived version
        pending := s.pending ++ [⟨s.channel.trialMode, version⟩]
        lastFailed := false }
    else some s
  | .appInfoFailed packageName errorMessage =>
    if s.channel.playApi = none then none
    else if packageName = pkgName s.channel.trialMode then
      some { s with
        channel := s.channel.onAppInfoFailed errorMessage
        lastFailed := !isUnauthorized errorMessage
        writer := if isUnauthorized errorMessage && !s.channel.trialMode then none else s.writer }
    else some s
  | .validated i hasVerifiedLicense =>
    match s.pending[i]? with
    | none => none
    | some p => s.validated p (s.pending.eraseIdx i) hasVerifiedLicense

/-! ## The claim -/

/-- The last app info request failed without 401 and 403, and the stored text was written by the
validation of exactly the current version. -/
def OfflineProof (s : LicenseGate) : Prop :=
  s.lastFailed = true ∧ s.writer = some s.channel.latest

/-- The flag is not set for nothing when the trial mode is off. -/
def Sound (s : LicenseGate) : Prop :=
  s.channel.trialMode = false → s.channel.hasVerifiedLicense = true →
    s.lastFull = some true ∨ s.OfflineProof

/-- What the events have to meet. With the trial mode off: it was not switched off with the flag of
the trial; no app info comes after a proof that was only an offline one; no text that was stored for
another version passes for the current one; no callback of the trial comes late; no negative
validation comes while the flag is set. -/
def EventOk (s : LicenseGate) : ChannelEvent → Prop
  | .setTrialMode trialMode =>
    trialMode = false → s.channel.trialMode = true → s.channel.playApi = some .succeeded →
      s.channel.hasVerifiedLicense = true → s.lastFull = some true ∨ s.OfflineProof
  | .appInfoReceived packageName _ =>
    s.channel.trialMode = false → packageName = pkgName false →
      s.channel.hasVerifiedLicense = true → s.lastFull = some true
  | .appInfoFailed packageName errorMessage =>
    s.channel.trialMode = false → packageName = pkgName false → isUnauthorized errorMessage = false →
      s.channel.latestVersionId = s.channel.latest.id →
      s.lastFull = some true ∨ s.writer = some s.channel.latest
  | .validated i hasVerifiedLicense =>
    s.channel.trialMode = false → ∀ p ∈ s.pending[i]?,
      (p.trialMode = true → s.lastFull = some true ∨ s.OfflineProof) ∧
      (p.trialMode = false → hasVerifiedLicense = false → s.channel.hasVerifiedLicense = true →
        s.channel.isChromeOS = true ∧ s.OfflineProof)
  | _ => True

section Events

variable {s s' : LicenseGate}

/-- With an API that is not ready the flag is the trial mode; else nothing changes that the claim is
about. -/
theorem onStatusChanged_cases (c : GoogleVersionChannel) :
    (onStatusChanged c).trialMode = c.trialMode ∧ (onStatusChanged c).latest = c.latest ∧
    (c.playApi = some .succeeded ∧
        (onStatusChanged c).hasVerifiedLicense = c.hasVerifiedLicense ∨
      c.playApi ≠ some .succeeded ∧ (onStatusChanged c).hasVerifiedLicense = c.trialMode) := by
  by_cases h : c.playApi = some .succeeded
  · have hstatus : GoogleVersionChannel.onStatusChanged c = c.onApiReady := by
      simp only [GoogleVersionChannel.onStatusChanged, h, Option.getD_some, ne_eq, not_true_eq_false,
        if_false]
    rw [hstatus]
    exact ⟨rfl, rfl, .inl ⟨h, rfl⟩⟩
  · have hne : c.playApi.getD .failed ≠ .succeeded := by
      cases hs : c.playApi with
      | none => simp
      | some status => simpa [hs] using h
    simp only [GoogleVersionChannel.onStatusChanged, if_pos hne]
    exact ⟨trivial, trivial, .inr ⟨h, trivial⟩⟩

/-- A change of the status keeps the claim, whatever else of the channel changes with it. -/
theorem Sound.onStatusChanged (h : s.Sound) {c : GoogleVersionChannel}
    (htrial : c.trialMode = s.channel.trialMode) (hlatest : c.latest = s.channel.latest)
    (hflag : c.hasVerifiedLicense = s.channel.hasVerifiedLicense) :
    Sound { s with channel := GoogleVersionChannel.onStatusChanged c } := by
  obtain ⟨ht, hl, ⟨-, hv⟩ | ⟨-, hv⟩⟩ := onStatusChanged_cases c
  · intro htrial' hflag'
    simp only [ht, hv, hflag, htrial] at htrial' hflag'
    simpa only [OfflineProof, hl, hlatest] using h htrial' hflag'
  · intro htrial' hflag'
    simp only [ht, hv] at htrial' hflag'
    rw [htrial'] at hflag'
    cases hflag'

theorem setTrialMode_sound_iff (h : s.Sound) (trialMode : Bool) :
    Sound { s with channel := s.channel.setTrialMode trialMode } ↔
      s.EventOk (.setTrialMode trialMode) := by
  unfold GoogleVersionChannel.setTrialMode
  split
  · rename_i hne
    obtain ⟨ht, hl, hcases⟩ := onStatusChanged_cases { s.channel with trialMode }
    simp only [Sound, EventOk, OfflineProof, ht, hl]
    constructor
    · intro hsound hfalse _ hapi hflag
      obtain ⟨-, hv⟩ | ⟨hn, -⟩ := hcases
      · exact hsound hfalse (hv.trans hflag)
      · exact absurd hapi hn
    · intro hok hfalse hflag
      obtain ⟨hapi, hv⟩ | ⟨-, hv⟩ := hcases
      · refine hok hfalse ?_ hapi (hv.symm.trans hflag)
        subst hfalse
        simpa using hne
      · rw [hv, hfalse] at hflag
        cases hflag
  · rename_i heq
    simp only [ne_eq, not_not] at heq
    refine ⟨fun _ hfalse htrue => ?_, fun _ => h⟩
    rw [heq, hfalse] at htrue
    cases htrue

theorem appInfoReceived_sound_iff (h : s.Sound) {packageName : String} {v : LatestVersion}
    (hs : s.step (.appInfoReceived packageName v) = some s') :
    s'.Sound ↔ s.EventOk (.appInfoReceived packageName v) := by
  simp only [step] at hs
  split at hs
  · cases hs
  split at hs
  · rename_i hpkg
    cases hs
    simp only [Sound, EventOk, OfflineProof, onAppInfoReceived, Bool.false_eq_true, false_and, or_false]
    constructor
    · intro hsound htrial _ hflag
      exact hsound htrial hflag
    · intro hok htrial hflag
      exact hok htrial (by rw [hpkg, htrial]) hflag
  · rename_i hpkg
    cases hs
    refine ⟨fun _ htrial hfull => ?_, fun _ => h⟩
    rw [htrial] at hpkg
    exact absurd hfull hpkg

theorem appInfoFailed_sound_iff (h : s.Sound) {packageName : String} {errorMessage : List Char}
    (hs : s.step (.appInfoFailed packageName errorMessage) = some s') :
    s'.Sound ↔ s.EventOk (.appInfoFailed packageName errorMessage) := by
  simp only [step] at hs
  split at hs
  · cases hs
  split at hs
  · rename_i hpkg
    cases hs
    cases htrial : s.channel.trialMode with
    | true =>
      refine ⟨fun _ hfalse => absurd (htrial.symm.trans hfalse) (by decide), fun _ hfalse => ?_⟩
      refine absurd ?_ (Bool.eq_false_iff.mp hfalse)
      simp only [onAppInfoFailed]
      split
      · exact htrial
      · split <;> exact htrial
    | false =>
      cases hauth : isUnauthorized errorMessage with
      | true =>
        refine ⟨fun _ _ _ hno => absurd (hauth.symm.trans hno) (by decide), fun _ _ hflag => ?_⟩
        simp [onAppInfoFailed, hauth] at hflag
      | false =>
        by_cases hid : s.channel.latestVersionId = s.channel.latest.id
        · simp [Sound, EventOk, OfflineProof, onAppInfoFailed, hauth, htrial, hid,
            hpkg]
        · refine ⟨fun _ _ _ _ hid' => absurd hid' hid, fun _ _ hflag => ?_⟩
          simp only [onAppInfoFailed, hauth, htrial, hid, Bool.false_eq_true, if_false, Bool.false_or,
            decide_false] at hflag ⊢
          exact (h htrial hflag).imp_right fun hproof => ⟨rfl, hproof.2⟩
  · rename_i hpkg
    cases hs
    refine ⟨fun _ htrial hfull => ?_, fun _ => h⟩
    rw [htrial] at hpkg
    exact absurd hfull hpkg

theorem validated_sound_iff {i : Nat} {hasVerifiedLicense : Bool}
    (hs : s.step (.validated i hasVerifiedLicense) = some s') :
    s'.Sound ↔ s.EventOk (.validated i hasVerifiedLicense) := by
  simp only [step] at hs
  split at hs
  · cases hs
  rename_i p hp
  simp only [EventOk, hp, Option.mem_def, Option.some.injEq, forall_eq']
  obtain ⟨trialMode, version⟩ := p
  cases trialMode with
  | true =>
    simp only [validated, if_true] at hs
    cases hs
    simp [Sound, OfflineProof, onValidated]
  | false =>
    simp only [validated, Bool.false_eq_true, if_false] at hs
    split at hs
    · cases hs
    cases hs
    cases hasVerifiedLicense with
    | true => simp [Sound]
    | false =>
      cases hos : s.channel.isChromeOS with
      | true => simp [Sound, OfflineProof, onValidated, hos]
      | false => simp [Sound, OfflineProof, onValidated, hos]

/-- **One event keeps the claim exactly if it meets the condition.** -/
theorem step_sound_iff (h : s.Sound) {e : ChannelEvent} (hs : s.step e = some s') :
    s'.Sound ↔ s.EventOk e := by
  cases e with
  | setTrialMode trialMode =>
    cases hs
    exact setTrialMode_sound_iff h trialMode
  | setPlayApi value =>
    cases hs
    exact ⟨fun _ => trivial, fun _ => h.onStatusChanged rfl rfl rfl⟩
  | setChromeOS isChromeOS =>
    cases hs
    exact ⟨fun _ => trivial, fun _ => h⟩
  | statusChanged status =>
    simp only [step] at hs
    split at hs
    · cases hs
    · cases hs
      exact ⟨fun _ => trivial, fun _ => h.onStatusChanged rfl rfl rfl⟩
  | ready =>
    simp only [step] at hs
    split at hs
    · cases hs
    · cases hs
      exact ⟨fun _ => trivial, fun _ => h⟩
  | appInfoReceived packageName version => exact appInfoReceived_sound_iff h hs
  | appInfoFailed packageName errorMessage => exact appInfoFailed_sound_iff h hs
  | validated i hasVerifiedLicense => exact validated_sound_iff hs

end Events

/-- In every run whose events meet the condition, whatever is in the settings at the start, the flag
is not set for nothing in any state that is reached. -/
theorem sound_of_meets (saved : LatestVersion) (latestVersionId : List Char)
    (writer : Option LatestVersion) (isChromeOS : Bool) (es es' : List ChannelEvent)
    (hok : Runs.Meets step EventOk (start saved latestVersionId writer isChromeOS) (es ++ es'))
    (s : LicenseGate)
    (hs : Runs.run step (start saved latestVersionId writer isChromeOS) es = some s) : s.Sound := by
  have hstart : (start saved latestVersionId writer isChromeOS).Sound :=
    fun _ hflag => absurd hflag Bool.false_ne_true
  apply hok.left.inv_of_run (I := Sound) _ hstart hs
  intro s e s' hsound hevent hstep
  exact (step_sound_iff hsound hstep).mpr hevent

/-- A version with its license: it is asked for, and found valid. -/
def licensed : List ChannelEvent :=
  [.setPlayApi (some .succeeded), .appInfoReceived (pkgName false) ⟨['1'], 300, false⟩,
    .validated 0 true]

theorem licensed_sound :
    ∃ s, Runs.run step (start ⟨[], 0, false⟩ [] none false) licensed = some s ∧
      s.channel.hasVerifiedLicense = true ∧ s.Sound := by
  refine ⟨_, rfl, rfl, ?_⟩
  apply sound_of_meets ⟨[], 0, false⟩ [] none false licensed []
  · refine .cons trivial rfl (.cons (fun _ _ h => absurd h (by decide)) rfl
      (.cons (fun _ p hp => ?_) rfl trivial))
    cases hp
    exact ⟨fun h => absurd h (by decide), fun _ h => absurd h (by decide)⟩
  · rfl

/-- The trial is switched off while the API is ready; the flag of the trial stays. -/
def trialSwitchedOff : List ChannelEvent :=
  [.setPlayApi (some .succeeded), .setTrialMode true,
    .appInfoReceived (pkgName true) ⟨['1'], 300, false⟩, .validated 0 false, .setTrialMode false]

/-- The flag is set with the trial mode off, although no validation of the full version was ever
completed and no app info request failed. -/
theorem not_sound_trialSwitchedOff :
    ∃ s, Runs.run step (start ⟨[], 0, false⟩ [] none false) trialSwitchedOff = some s ∧
      s.channel.trialMode = false ∧ s.channel.hasVerifiedLicense = true ∧ s.lastFull = none ∧
      s.lastFailed = false ∧ ¬s.Sound := by
  refine ⟨_, rfl, rfl, rfl, rfl, rfl, ?_⟩
  intro h
  rcases h rfl rfl with h | h
  · cases h
  · exact absurd h.1 (by decide)

end LicenseGate
end McpeLauncher.Versions
