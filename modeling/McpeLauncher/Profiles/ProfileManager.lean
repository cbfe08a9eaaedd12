import McpeLauncher.Lib.Decimal
import McpeLauncher.Lib.Terminated

/-!
# Profiles and their settings

`ProfileManager` keeps the profiles in memory and in `profiles.ini`: a group for each profile, under
the name that it had when it was saved last, and the name of the active profile under the root key
`selected`. A text is the list of its characters; an object is known by the number under which it
was made.
-/

namespace McpeLauncher.Profiles

/-! ## Numbers as texts -/

/-- `QChar::isSpace`. -/
def isSpace (c : Char) : Bool :=
  let n := c.toNat
  n == 32 || (9 ≤ n && n ≤ 13) || n == 0x85 || n == 0xA0 || n == 0x1680 ||
    (0x2000 ≤ n && n ≤ 0x200A) || n == 0x2028 || n == 0x2029 || n == 0x202F || n == 0x205F ||
    n == 0x3000

def trimmed (s : List Char) : List Char :=
  ((s.dropWhile isSpace).reverse.dropWhile isSpace).reverse

/-- `QString::number`. -/
def number (n : Int32) : List Char :=
  (Decimal.intText n.toInt).map fun b => Char.ofNat b.toNat

def asciiByte (c : Char) : UInt8 := if c.toNat < 128 then UInt8.ofNat c.toNat else 0

/-- `QString::toInt`: zero unless the whole text is a number that fits. -/
def toInt (s : List Char) : Int32 :=
  let bytes := (trimmed s).map asciiByte
  match Decimal.readInt bytes with
  | none => 0
  | some n =>
    if (Decimal.readSign bytes).2.all Decimal.isDigit && Int32.minValue.toInt ≤ n &&
        n ≤ Int32.maxValue.toInt then Int32.ofInt n
    else 0

/-! ## The environment of a profile -/

/-- `QQmlPropertyMap`: each name once, in the order in which they were set first. The names are
those of C strings. -/
structure PropertyMap where
  entries : List (List Char × List Char)
  nodup : (entries.map Prod.fst).Nodup
  cString : ∀ e ∈ entries, '\x00' ∉ e.1
  deriving DecidableEq

namespace PropertyMap

def empty : PropertyMap := ⟨[], .nil, fun _ h => absurd h List.not_mem_nil⟩

/-- The entries after a name was set. -/
def setEntry (entries : List (List Char × List Char)) (name value : List Char) :
    List (List Char × List Char) :=
  if ∃ e ∈ entries, e.1 = name then entries.map fun e => if e.1 = name then (name, value) else e
  else entries ++ [(name, value)]

theorem setEntry_keys (entries : List (List Char × List Char)) (name value : List Char) :
    (setEntry entries name value).map Prod.fst =
      if ∃ e ∈ entries, e.1 = name then entries.map Prod.fst
      else entries.map Prod.fst ++ [name] := by
  unfold setEntry
  split
  · rw [List.map_map]
    apply List.map_congr_left
    intro e _
    simp only [Function.comp_apply]
    split
    · rename_i he
      exact he.symm
    · rfl
  · rw [List.map_append]
    rfl

theorem setEntry_nodup {entries : List (List Char × List Char)} (name value : List Char)
    (h : (entries.map Prod.fst).Nodup) : ((setEntry entries name value).map Prod.fst).Nodup := by
  rw [setEntry_keys]
  split
  · exact h
  · rename_i hn
    rw [List.nodup_append]
    refine ⟨h, List.nodup_singleton name, ?_⟩
    rintro k hk l hl rfl
    exact hn (List.mem_map.mp (List.mem_singleton.mp hl ▸ hk))

theorem mem_setEntry_key {entries : List (List Char × List Char)} {name value : List Char}
    {e : List Char × List Char} (he : e ∈ setEntry entries name value) :
    e.1 = name ∨ ∃ e' ∈ entries, e'.1 = e.1 := by
  have hk : e.1 ∈ (setEntry entries name value).map Prod.fst := List.mem_map_of_mem he
  rw [setEntry_keys] at hk
  split at hk
  · exact .inr (List.mem_map.mp hk)
  · rcases List.mem_append.mp hk with hk | hk
    · exact .inr (List.mem_map.mp hk)
    · exact .inl (List.mem_singleton.mp hk)

/-- `setProperty(name.toStdString().data(), value)`. -/
def setProperty (m : PropertyMap) (name value : List Char) : PropertyMap where
  entries := setEntry m.entries (name.takeWhile (· ≠ '\x00')) value
  nodup := setEntry_nodup _ _ m.nodup
  cString e he hc := by
    rcases mem_setEntry_key he with hk | ⟨e', he', hk⟩
    · exact Terminated.not_mem_upTo _ _ (hk ▸ hc)
    · rw [← hk] at hc
      exact m.cString e' he' hc

end PropertyMap

/-! ## Profiles -/

inductive VersionType
  | latestGooglePlay
  | lockedName
  | lockedCode
  deriving DecidableEq

/-- The fields of a new profile are the defaults. `versionCode` is `none` while it is not
initialised. -/
structure ProfileFields where
  versionType : VersionType := .latestGooglePlay
  versionDirName : List Char := []
  versionCode : Option Int32 := none
  dataDirCustom : Bool := false
  dataDir : List Char := []
  windowCustomSize : Bool := false
  windowWidth : Int32 := 720
  windowHeight : Int32 := 480
  arch : List Char := []
  mods : List (List Char) := []
  commandline : List Char := []
  env : PropertyMap := .empty
  deriving DecidableEq

structure ProfileInfo where
  id : Nat
  name : List Char
  nameLocked : Bool := false
  fields : ProfileFields := {}
  texturePatch : Int32 := 0
  deriving DecidableEq

/-- A group of the settings, as `value(key)` and the arrays read it. A key that is missing reads as
the empty text, as `false` or as zero. -/
structure Group where
  version : List Char
  dataDirCustom : Bool
  dataDir : List Char
  windowCustomSize : Bool
  windowWidth : Int32
  windowHeight : Int32
  arch : List Char
  texturePatch : Int32
  commandline : List Char
  env : List (List Char × List Char)
  mods : List (List Char)

def googleplay : List Char := ['g', 'o', 'o', 'g', 'l', 'e', 'p', 'l', 'a', 'y']
def lock : List Char := ['l', 'o', 'c', 'k', ' ']
def dir : List Char := ['d', 'i', 'r', ' ']

namespace ProfileFields

/-- The text under `version`. The code is read for a locked one, initialised or not. -/
def versionText (f : ProfileFields) : Option (List Char) :=
  match f.versionType with
  | .latestGooglePlay => some googleplay
  | .lockedCode => f.versionCode.map fun code => lock ++ number code
  | .lockedName => some (dir ++ f.versionDirName)

def loadVersion (f : ProfileFields) (version arch : List Char) : ProfileFields :=
  if version = googleplay then { f with versionType := .latestGooglePlay }
  else if lock.isPrefixOf version then
    { f with versionType := .lockedCode, versionCode := some (toInt (version.drop 5)), arch }
  else if dir.isPrefixOf version then
    { f with versionType := .lockedName, versionDirName := version.drop 4, arch }
  else f

/-- What `loadProfiles` does with a group of the settings. -/
def load (f : ProfileFields) (g : Group) : ProfileFields :=
  { f.loadVersion g.version g.arch with
    dataDirCustom := g.dataDirCustom
    dataDir := g.dataDir
    windowCustomSize := g.windowCustomSize
    windowWidth := g.windowWidth
    windowHeight := g.windowHeight
    commandline := g.commandline
    env := g.env.foldl (fun env e => env.setProperty e.1 e.2) f.env
    mods := f.mods ++ g.mods }

end ProfileFields

namespace ProfileInfo

/-- A texture patch above 2 is the fixup of a corruption. -/
def load (p : ProfileInfo) (g : Group) : ProfileInfo :=
  { p with
    fields := p.fields.load g
    texturePatch := if g.texturePatch > 2 then 0 else g.texturePatch }

/-- The group that `save` writes. -/
def toGroup (p : ProfileInfo) : Option Group :=
  p.fields.versionText.map fun version =>
    { version
      dataDirCustom := p.fields.dataDirCustom
      dataDir := p.fields.dataDir
      windowCustomSize := p.fields.windowCustomSize
      windowWidth := p.fields.windowWidth
      windowHeight := p.fields.windowHeight
      arch := p.fields.arch
      texturePatch := p.texturePatch
      commandline := p.fields.commandline
      env := p.fields.env.entries
      mods := p.fields.mods }

end ProfileInfo

/-! ## The settings -/

def selectedKey : List Char := ['s', 'e', 'l', 'e', 'c', 't', 'e', 'd']
def metadata : List Char := ['M', 'e', 't', 'a', 'd', 'a', 't', 'a']
def defaultName : List Char := ['D', 'e', 'f', 'a', 'u', 'l', 't']

/-- The root key `selected`, empty if it is missing, and the groups of the root. -/
structure Settings where
  selected : List Char := []
  groups : Std.TreeMap (List Char) Group := ∅

/-- Removes the key of that name and everything below it. -/
def Settings.remove (st : Settings) (name : List Char) : Settings where
  selected := if name = selectedKey then [] else st.selected
  groups := st.groups.erase name

/-! ## The manager -/

def defaultId : Nat := 0

structure ProfileManager where
  settings : Settings
  profiles : List ProfileInfo
  activeProfile : Nat
  nextId : Nat

namespace ProfileManager

def validateName (name : List Char) : Bool := !name.contains '/'

def profile? (m : ProfileManager) (id : Nat) : Option ProfileInfo := m.profiles.find? (·.id = id)

/-- The object of the number `id`, with its members changed. -/
def modify (m : ProfileManager) (id : Nat) (f : ProfileInfo → ProfileInfo) : ProfileManager :=
  { m with profiles := m.profiles.map fun p => if p.id = id then f p else p }

/-- `new ProfileInfo`, at the end of the list. -/
def pushBack (m : ProfileManager) (p : ProfileInfo) : ProfileManager :=
  { m with profiles := m.profiles ++ [p], nextId := m.nextId + 1 }

/-- The body of the loop of `loadProfiles`. -/
def loadGroup (m : ProfileManager) (e : List Char × Group) : ProfileManager :=
  if e.1 = metadata then m
  else if e.1 = defaultName then
    m.modify defaultId fun p => (if p.nameLocked then p else { p with name := e.1 }).load e.2
  else m.pushBack (ProfileInfo.load { id := m.nextId, name := e.1 } e.2)

/-- The manager with the default profile only. -/
def init (settings : Settings) : ProfileManager where
  settings
  profiles := [{ id := defaultId, name := defaultName, nameLocked := true }]
  activeProfile := defaultId
  nextId := 1

def loadProfiles (m : ProfileManager) : ProfileManager := m.settings.groups.toList.foldl loadGroup m

/-- The constructor. -/
def ofSettings (settings : Settings) : ProfileManager :=
  let m := (init settings).loadProfiles
  { m with
    activeProfile := ((m.profiles.find? (·.name = settings.selected)).map ProfileInfo.id).getD defaultId }

def save (m : ProfileManager) (p : ProfileInfo) : Option ProfileManager :=
  p.toGroup.map fun g => { m with settings.groups := m.settings.groups.insert p.name g }

/-- `createProfile`, followed by `save`. -/
def createProfile (m : ProfileManager) (name : List Char) : Option ProfileManager :=
  let p := { id := m.nextId, name }
  (m.pushBack p).save p

def setName (m : ProfileManager) (p : ProfileInfo) (newName : List Char) : Option ProfileManager :=
  if p.name = newName then some m
  else
    let p' := { p with name := newName }
    ({ m with settings := m.settings.remove p.name }.modify p.id fun _ => p').save p'

def setActiveProfile (m : ProfileManager) (p : ProfileInfo) : ProfileManager :=
  { m with activeProfile := p.id, settings.selected := p.name }

/-- `setActiveProfile` reads the name of the default profile, also if that is the one to delete. -/
def deleteProfile (m : ProfileManager) (p : ProfileInfo) : Option ProfileManager :=
  let m' := { m with
    settings := m.settings.remove p.name
    profiles := m.profiles.eraseP (·.id = p.id) }
  if m.activeProfile = p.id then (m.profile? defaultId).map m'.setActiveProfile else some m'

/-- Edits of the fields, followed by `save`. -/
def edit (m : ProfileManager) (p : ProfileInfo) (fields : ProfileFields) (texturePatch : Int32) :
    Option ProfileManager :=
  let p' := { p with fields, texturePatch }
  (m.modify p.id fun _ => p').save p'

end ProfileManager

inductive ProfileOp
  | createProfile (name : List Char)
  | setName (id : Nat) (newName : List Char)
  | deleteProfile (id : Nat)
  | setActiveProfile (id : Nat)
  | edit (id : Nat) (fields : ProfileFields) (texturePatch : Int32)

/-- A call on an object that is not there has no defined behaviour. -/
def ProfileManager.step (m : ProfileManager) : ProfileOp → Option ProfileManager
  | .createProfile name => m.createProfile name
  | .setName id newName => (m.profile? id).bind (m.setName · newName)
  | .deleteProfile id => (m.profile? id).bind m.deleteProfile
  | .setActiveProfile id => (m.profile? id).map m.setActiveProfile
  | .edit id fields texturePatch => (m.profile? id).bind (m.edit · fields texturePatch)

end McpeLauncher.Profiles
