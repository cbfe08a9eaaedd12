import McpeLauncher.Lib.Keyed
import McpeLauncher.Profiles.ProfileManager

/-!
# What a new manager reads

Settings describe a map from names to fields and the name of an active profile. A new manager has
exactly the profiles of this map; a manager whose memory agrees with its settings is read back.
-/

namespace McpeLauncher.Profiles

/-! ## Numbers -/

theorem trimmed_eq_self {s : List Char} (h : ∀ c ∈ s, isSpace c = false) : trimmed s = s := by
  have hdrop : ∀ t : List Char, (∀ c ∈ t, isSpace c = false) → t.dropWhile isSpace = t := by
    intro t ht
    cases t with
    | nil => rfl
    | cons c t => exact List.dropWhile_cons_of_neg (by simp [ht c (.head t)])
  rw [trimmed, hdrop s h, hdrop s.reverse fun c hc => h c (List.mem_reverse.mp hc),
    List.reverse_reverse]

/-- A byte of a number is its own character. -/
theorem intText_ascii {n : Int} {b : UInt8} (hb : b ∈ Decimal.intText n) :
    b = 45 ∨ Decimal.isDigit b = true := by
  unfold Decimal.intText at hb
  split at hb
  · rcases List.mem_cons.mp hb with rfl | hb
    · exact .inl rfl
    · exact .inr (Decimal.natText_isDigit _ b hb)
  · exact .inr (Decimal.natText_isDigit _ b hb)

theorem isDigit_range {b : UInt8} (h : Decimal.isDigit b = true) : 48 ≤ b.toNat ∧ b.toNat ≤ 57 := by
  rw [Decimal.isDigit, Bool.and_eq_true, decide_eq_true_eq, decide_eq_true_eq] at h
  exact h

theorem intText_range {n : Int} {b : UInt8} (hb : b ∈ Decimal.intText n) :
    45 ≤ b.toNat ∧ b.toNat ≤ 57 := by
  rcases intText_ascii hb with rfl | hd
  · decide
  · have := isDigit_range hd
    omega

theorem toNat_charOfByte {b : UInt8} (hb : b.toNat ≤ 57) : (Char.ofNat b.toNat).toNat = b.toNat := by
  have hv : b.toNat.isValidChar := .inl (by omega)
  rw [Char.ofNat, dif_pos hv]
  rfl

theorem trimmed_number (n : Int32) : trimmed (number n) = number n := by
  apply trimmed_eq_self
  intro c hc
  obtain ⟨b, hb, rfl⟩ := List.mem_map.mp hc
  have hr := intText_range hb
  simp only [isSpace, toNat_charOfByte hr.2]
  simp
  omega

theorem asciiByte_number (n : Int32) : (number n).map asciiByte = Decimal.intText n.toInt := by
  rw [number, List.map_map]
  conv_rhs => rw [← List.map_id (Decimal.intText n.toInt)]
  apply List.map_congr_left
  intro b hb
  have hr := intText_range hb
  simp only [Function.comp_apply, asciiByte, toNat_charOfByte hr.2, id_eq]
  rw [if_pos (by omega), UInt8.ofNat_toNat]

theorem readSign_intText (n : Int) :
    (Decimal.readSign (Decimal.intText n)).2.all Decimal.isDigit = true := by
  rw [List.all_eq_true]
  unfold Decimal.intText
  split
  · exact Decimal.natText_isDigit n.natAbs
  · obtain ⟨b, s, hs⟩ := List.exists_cons_of_ne_nil (Decimal.natText_ne_nil n.natAbs)
    have hdigits := Decimal.natText_isDigit n.natAbs
    rw [hs] at hdigits ⊢
    rw [Decimal.readSign_of_isDigit s (hdigits b (.head s))]
    exact hdigits

@[simp] theorem toInt_number (n : Int32) : toInt (number n) = n := by
  have hle := n.minValue_le_toInt
  have hge := n.toInt_le
  simp only [toInt, trimmed_number, asciiByte_number, Decimal.readInt_intText, readSign_intText]
  rw [if_pos (by simpa using ⟨hle, hge⟩), Int32.ofInt_toInt]

/-! ## A group that was saved -/

namespace PropertyMap

/-- The array of a map, read back into another one. -/
theorem foldl_setProperty {l : List (List Char × List Char)} (m : PropertyMap)
    (hn : ((m.entries ++ l).map Prod.fst).Nodup) (hc : ∀ e ∈ l, '\x00' ∉ e.1) :
    (l.foldl (fun env e => env.setProperty e.1 e.2) m).entries = m.entries ++ l := by
  induction l generalizing m with
  | nil => exact (List.append_nil _).symm
  | cons e l ih =>
    have hname : e.1.takeWhile (· ≠ '\x00') = e.1 :=
      Terminated.upTo_of_not_mem (hc e (.head l))
    have hnew : ¬∃ e' ∈ m.entries, e'.1 = e.1 := by
      rw [List.map_append, List.nodup_append] at hn
      exact fun hm => hn.2.2 _ (List.mem_map.mpr hm) e.1 (.head _) rfl
    have hset : (m.setProperty e.1 e.2).entries = m.entries ++ [e] := by
      simp only [setProperty, hname, setEntry, if_neg hnew]
    rw [List.foldl_cons, ih (m.setProperty e.1 e.2)]
    · rw [hset, List.append_assoc]
      rfl
    · rw [hset, List.append_assoc]
      exact hn
    · exact fun e' he' => hc e' (.tail e he')

theorem foldl_setProperty_entries (m : PropertyMap) :
    m.entries.foldl (fun env e => env.setProperty e.1 e.2) empty = m := by
  have h := foldl_setProperty empty (l := m.entries) m.nodup m.cString
  generalize m.entries.foldl (fun env e => env.setProperty e.1 e.2) empty = m' at h
  obtain ⟨entries, _, _⟩ := m'
  obtain ⟨entries', _, _⟩ := m
  cases h
  rfl

end PropertyMap

namespace ProfileFields

/-- The fields that the version type does not use are those of a new profile. -/
def Normal (f : ProfileFields) : Prop :=
  (f.versionType ≠ .lockedCode → f.versionCode = none) ∧
  (f.versionType ≠ .lockedName → f.versionDirName = []) ∧
  (f.versionType = .latestGooglePlay → f.arch = [])
  deriving Decidable

theorem loadVersion_lock (f : ProfileFields) (code : Int32) (arch : List Char) :
    f.loadVersion (lock ++ number code) arch =
      { f with versionType := .lockedCode, versionCode := some code, arch } := by
  have hne : lock ++ number code ≠ googleplay := fun h => absurd (List.cons.inj h).1 (by decide)
  have hlock : lock.isPrefixOf (lock ++ number code) = true := by simp
  have hdrop : (lock ++ number code).drop 5 = number code := rfl
  rw [loadVersion, if_neg hne, if_pos hlock, hdrop, toInt_number]

theorem loadVersion_dir (f : ProfileFields) (name arch : List Char) :
    f.loadVersion (dir ++ name) arch =
      { f with versionType := .lockedName, versionDirName := name, arch } := by
  have hne : dir ++ name ≠ googleplay := fun h => absurd (List.cons.inj h).1 (by decide)
  have hlock : ¬lock.isPrefixOf (dir ++ name) = true := Bool.false_ne_true
  have hdir : dir.isPrefixOf (dir ++ name) = true := by simp
  rw [loadVersion, if_neg hne, if_neg hlock, if_pos hdir]
  rfl

/-- Whatever a group holds, it is read into fields that are written as they are. -/
theorem load_normal (g : Group) : (load {} g).Normal := by
  simp only [Normal, load, loadVersion]
  split_ifs <;> simp

/-- **A profile with normal fields is read back as it was saved.** -/
theorem load_toGroup {p : ProfileInfo} {g : Group} (hn : p.fields.Normal)
    (hg : p.toGroup = some g) : load {} g = p.fields := by
  obtain ⟨version, hv, rfl⟩ := Option.map_eq_some_iff.mp hg
  have henv := p.fields.env.foldl_setProperty_entries
  obtain ⟨_, _, _, ⟨type, dirName, code, _, _, _, _, _, arch, _, _, _⟩, _⟩ := p
  cases type with
  | latestGooglePlay =>
    obtain ⟨rfl, rfl, rfl⟩ : code = none ∧ dirName = [] ∧ arch = [] := by simpa [Normal] using hn
    cases hv
    simp [load, loadVersion, henv]
  | lockedName =>
    obtain rfl : code = none := by simpa [Normal] using hn
    cases hv
    simp [load, loadVersion_dir, henv]
  | lockedCode =>
    obtain rfl : dirName = [] := by simpa [Normal] using hn
    obtain ⟨code, rfl, rfl⟩ := Option.map_eq_some_iff.mp hv
    simp [load, loadVersion_lock, henv]

end ProfileFields

/-! ## What a new manager reads -/

namespace Settings

/-- The fields of the profile of that name in a new manager. -/
def lookup (st : Settings) (name : List Char) : Option ProfileFields :=
  if name = metadata then none
  else match st.groups[name]? with
    | some g => some (ProfileFields.load {} g)
    | none => if name = defaultName then some {} else none

/-- The name of the active profile in a new manager. -/
def activeName (st : Settings) : List Char :=
  if (st.lookup st.selected).isSome then st.selected else defaultName

variable {st : Settings}

theorem lookup_insert {name : List Char} (g : Group) (hname : name ≠ metadata) (n : List Char) :
    lookup { st with groups := st.groups.insert name g } n =
      if n = name then some (ProfileFields.load {} g) else st.lookup n := by
  unfold lookup
  rw [Std.TreeMap.getElem?_insert]
  by_cases hn : n = name
  · subst hn
    simp [hname]
  · have hc : ¬compare name n = .eq := fun h => hn (Std.LawfulEqOrd.eq_of_compare h).symm
    rw [if_neg hn, if_neg hc]

theorem lookup_remove (st : Settings) {name : List Char} (hname : name ≠ defaultName) (n : List Char) :
    (st.remove name).lookup n = if n = name then none else st.lookup n := by
  unfold lookup remove
  rw [Std.TreeMap.getElem?_erase]
  by_cases hn : n = name
  · subst hn
    simp [hname]
  · have hc : ¬compare name n = .eq := fun h => hn (Std.LawfulEqOrd.eq_of_compare h).symm
    rw [if_neg hn, if_neg hc]

/-- The default profile is always there. -/
theorem lookup_defaultName : (st.lookup defaultName).isSome := by
  unfold lookup
  rw [if_neg (by decide)]
  split <;> rfl

/-- What is read has normal fields. -/
theorem lookup_normal {n : List Char} {f : ProfileFields} (h : st.lookup n = some f) : f.Normal := by
  unfold lookup at h
  split at h
  · cases h
  split at h
  · cases h
    exact ProfileFields.load_normal _
  · split at h
    · cases h
      decide
    · cases h

end Settings

namespace ProfileManager

/-- The name and the fields of a profile, which the claim compares. -/
def values (p : ProfileInfo) : List Char × ProfileFields := (p.name, p.fields)

/-- A new manager has the same profiles, and the same one is active. -/
def Persisted (m : ProfileManager) : Prop :=
  let r := ofSettings m.settings
  (r.profiles.map values).Perm (m.profiles.map values) ∧
  ∃ p ∈ m.profile? m.activeProfile, ∃ q ∈ r.profile? r.activeProfile, q.name = p.name

/-- Each object is in the list once. -/
structure Objects (m : ProfileManager) : Prop where
  ids : (m.profiles.map ProfileInfo.id).Nodup
  fresh : ∀ p ∈ m.profiles, p.id < m.nextId

theorem Objects.pushBack {m : ProfileManager} (h : m.Objects) {p : ProfileInfo}
    (hp : p.id = m.nextId) : (m.pushBack p).Objects where
  ids := by
    simp only [ProfileManager.pushBack, List.map_append, List.map_cons, List.map_nil]
    rw [List.nodup_append]
    refine ⟨h.ids, List.nodup_singleton _, ?_⟩
    rintro i hi j hj rfl
    obtain ⟨q, hq, hqi⟩ := List.mem_map.mp hi
    have := h.fresh q hq
    rw [hqi, List.mem_singleton.mp hj, hp] at this
    exact absurd this (Nat.lt_irrefl _)
  fresh q hq := by
    rcases List.mem_append.mp hq with hq | hq
    · exact Nat.lt_succ_of_lt (h.fresh q hq)
    · rw [List.mem_singleton.mp hq, hp]
      exact Nat.lt_succ_self _

theorem Objects.map {m : ProfileManager} (h : m.Objects) {f : ProfileInfo → ProfileInfo}
    (hf : ∀ p, (f p).id = p.id) : Objects { m with profiles := m.profiles.map f } where
  ids := by
    rw [List.map_map]
    simpa only [Function.comp_def, hf] using h.ids
  fresh p hp := by
    obtain ⟨q, hq, rfl⟩ := List.mem_map.mp hp
    rw [hf]
    exact h.fresh q hq

/-- Names are distinct, and the default profile is in its place. -/
structure WellFormed (m : ProfileManager) : Prop extends Objects m where
  names : (m.profiles.map ProfileInfo.name).Nodup
  named : ∀ p ∈ m.profiles, p.name ≠ []
  default : ∃ p ∈ m.profiles, p.id = defaultId ∧ p.name = defaultName

/-- The memory and the settings agree. -/
structure Aligned (m : ProfileManager) : Prop extends WellFormed m where
  stored : ∀ v, v ∈ m.profiles.map values ↔ m.settings.lookup v.1 = some v.2
  active : ∃ p ∈ m.profiles, p.id = m.activeProfile ∧ p.name = m.settings.activeName

theorem Aligned.profile_active {m : ProfileManager} (h : m.Aligned) :
    ∃ p ∈ m.profile? m.activeProfile, p.name = m.settings.activeName := by
  obtain ⟨p, hp, hid, hname⟩ := h.active
  exact ⟨p, (Keyed.find?_eq_some_iff h.ids).mpr ⟨hp, hid⟩, hname⟩

theorem WellFormed.values_nodup {m : ProfileManager} (h : m.WellFormed) :
    (m.profiles.map values).Nodup := by
  apply List.Nodup.of_map Prod.fst
  rw [List.map_map]
  exact h.names

theorem mem_values {m : ProfileManager} {v : List Char × ProfileFields} :
    v ∈ m.profiles.map values ↔ ∃ p ∈ m.profiles, p.name = v.1 ∧ p.fields = v.2 := by
  rw [List.mem_map]
  constructor
  · rintro ⟨p, hp, rfl⟩
    exact ⟨p, hp, rfl, rfl⟩
  · rintro ⟨p, hp, hn, hf⟩
    exact ⟨p, hp, Prod.ext hn hf⟩

/-! ## Loading -/

/-- What the groups do to the fields of the default profile. -/
def loadDefault (f : ProfileFields) (e : List Char × Group) : ProfileFields :=
  if e.1 = defaultName then f.load e.2 else f

/-- The group of a profile that is not the default one. -/
def ordinary (e : List Char × Group) : Bool := e.1 ≠ metadata && e.1 ≠ defaultName

/-- What holds from `init` on while the groups are loaded. -/
structure Loading (m : ProfileManager) : Prop extends Objects m where
  locked : ∀ p ∈ m.profiles, p.id = defaultId → p.nameLocked = true ∧ p.name = defaultName
  default : ∃ p ∈ m.profiles, p.id = defaultId

theorem loading_init (st : Settings) : (init st).Loading where
  ids := List.nodup_singleton _
  fresh p hp := by
    rw [List.mem_singleton.mp hp]
    exact Nat.one_pos
  locked p hp _ := by
    rw [List.mem_singleton.mp hp]
    exact ⟨rfl, rfl⟩
  default := ⟨_, List.mem_singleton_self _, rfl⟩

theorem Loading.nextId_ne {m : ProfileManager} (h : m.Loading) : m.nextId ≠ defaultId := by
  obtain ⟨p, hp, hid⟩ := h.default
  have := h.fresh p hp
  rw [hid] at this
  exact Nat.ne_of_gt this

theorem Loading.pushBack {m : ProfileManager} (h : m.Loading) {p : ProfileInfo}
    (hp : p.id = m.nextId) : (m.pushBack p).Loading where
  toObjects := h.toObjects.pushBack hp
  locked q hq hid := by
    rcases List.mem_append.mp hq with hq | hq
    · exact h.locked q hq hid
    · rw [List.mem_singleton.mp hq, hp] at hid
      exact absurd hid h.nextId_ne
  default := by
    obtain ⟨q, hq, hid⟩ := h.default
    exact ⟨q, List.mem_append_left _ hq, hid⟩

/-- The default profile, if it is one, after its group was loaded. -/
def loadInto (g : Group) (p : ProfileInfo) : ProfileInfo := if p.id = defaultId then p.load g else p

@[simp] theorem loadInto_id (g : Group) (p : ProfileInfo) : (loadInto g p).id = p.id := by
  unfold loadInto
  split <;> rfl

@[simp] theorem loadInto_name (g : Group) (p : ProfileInfo) : (loadInto g p).name = p.name := by
  unfold loadInto
  split <;> rfl

@[simp] theorem loadInto_nameLocked (g : Group) (p : ProfileInfo) :
    (loadInto g p).nameLocked = p.nameLocked := by
  unfold loadInto
  split <;> rfl

theorem Loading.loadGroup_default {m : ProfileManager} (h : m.Loading) (g : Group) :
    m.loadGroup (defaultName, g) = { m with profiles := m.profiles.map (loadInto g) } := by
  have hne : defaultName ≠ metadata := by decide
  rw [loadGroup, if_neg hne, if_pos rfl, modify]
  congr 1
  apply List.map_congr_left
  intro p hp
  unfold loadInto
  split
  · rename_i hid
    rw [if_pos (h.locked p hp hid).1]
  · rfl

theorem Loading.map_loadInto {m : ProfileManager} (h : m.Loading) (g : Group) :
    Loading { m with profiles := m.profiles.map (loadInto g) } where
  toObjects := h.toObjects.map (loadInto_id g)
  locked p hp hid := by
    obtain ⟨q, hq, rfl⟩ := List.mem_map.mp hp
    rw [loadInto_nameLocked, loadInto_name]
    exact h.locked q hq ((loadInto_id g q).symm.trans hid)
  default := by
    obtain ⟨q, hq, hid⟩ := h.default
    exact ⟨_, List.mem_map_of_mem hq, (loadInto_id g q).trans hid⟩

/-- The three kinds of groups. -/
theorem Loading.loadGroup_cases {m : ProfileManager} (h : m.Loading) (e : List Char × Group) :
    (e.1 = metadata ∧ m.loadGroup e = m) ∨
    (e.1 = defaultName ∧ m.loadGroup e = { m with profiles := m.profiles.map (loadInto e.2) }) ∨
    (ordinary e = true ∧
      m.loadGroup e = m.pushBack (ProfileInfo.load { id := m.nextId, name := e.1 } e.2)) := by
  obtain ⟨name, g⟩ := e
  by_cases hmeta : name = metadata
  · exact .inl ⟨hmeta, if_pos hmeta⟩
  by_cases hdefault : name = defaultName
  · subst hdefault
    exact .inr (.inl ⟨rfl, h.loadGroup_default g⟩)
  · refine .inr (.inr ⟨by simp [ordinary, hmeta, hdefault], ?_⟩)
    rw [loadGroup, if_neg hmeta, if_neg hdefault]

/-- **What loading a list of groups does**: the default profile takes its groups, each ordinary
group becomes a profile of its own. -/
theorem Loading.foldl_loadGroup {m : ProfileManager} (h : m.Loading) (es : List (List Char × Group)) :
    (es.foldl loadGroup m).Loading ∧
    (es.foldl loadGroup m).settings = m.settings ∧
    (es.foldl loadGroup m).profiles.map values =
      (m.profiles.map fun p =>
        (p.name, if p.id = defaultId then es.foldl loadDefault p.fields else p.fields)) ++
      (es.filter ordinary).map fun e => (e.1, ProfileFields.load {} e.2) := by
  induction es generalizing m with
  | nil =>
    refine ⟨h, rfl, ?_⟩
    rw [List.filter_nil, List.map_nil, List.append_nil]
    apply List.map_congr_left
    intro p _
    simp [values]
  | cons e es ih =>
    rw [List.foldl_cons]
    obtain ⟨he, hm⟩ | ⟨he, hm⟩ | ⟨he, hm⟩ := h.loadGroup_cases e
    · obtain ⟨hload, hst, hv⟩ := ih h
      have hno : ¬ordinary e = true := by simp [ordinary, he]
      have hne : e.1 ≠ defaultName := by
        rw [he]
        decide
      have hd : ∀ f, loadDefault f e = f := fun f => if_neg hne
      rw [hm, List.filter_cons_of_neg hno]
      refine ⟨hload, hst, hv.trans ?_⟩
      simp only [List.foldl_cons, hd]
    · obtain ⟨hload, hst, hv⟩ := ih (h.map_loadInto e.2)
      have hno : ¬ordinary e = true := by simp [ordinary, he]
      rw [hm, List.filter_cons_of_neg hno]
      refine ⟨hload, hst, hv.trans ?_⟩
      rw [List.map_map]
      congr 1
      apply List.map_congr_left
      intro p _
      simp only [Function.comp_apply, loadInto_id, loadInto_name]
      by_cases hid : p.id = defaultId
      · simp only [loadInto, if_pos hid, List.foldl_cons, loadDefault, if_pos he]
        rfl
      · simp only [loadInto, if_neg hid]
    · have hpush : (m.pushBack (ProfileInfo.load { id := m.nextId, name := e.1 } e.2)).Loading :=
        h.pushBack rfl
      obtain ⟨hload, hst, hv⟩ := ih hpush
      have hne : e.1 ≠ defaultName := by
        simp only [ordinary, Bool.and_eq_true, decide_eq_true_eq] at he
        exact he.2
      have hd : ∀ f, loadDefault f e = f := fun f => if_neg hne
      rw [hm, List.filter_cons_of_pos he]
      refine ⟨hload, hst, hv.trans ?_⟩
      simp only [ProfileManager.pushBack, List.map_append, List.map_cons, List.map_nil,
        List.append_assoc, List.foldl_cons, hd]
      congr 2
      simp [ProfileInfo.load, h.nextId_ne]

theorem nodup_groups (st : Settings) : (st.groups.toList.map Prod.fst).Nodup := by
  rw [Std.TreeMap.map_fst_toList_eq_keys]
  exact Std.TreeMap.nodup_keys

/-- The default profile of a new manager. -/
theorem lookup_default (st : Settings) :
    st.lookup defaultName = some (st.groups.toList.foldl loadDefault {}) := by
  have hne : defaultName ≠ metadata := by decide
  rw [Settings.lookup, if_neg hne]
  cases hg : st.groups[defaultName]? with
  | none =>
    have hno : defaultName ∉ st.groups.toList.map Prod.fst := by
      intro hmem
      obtain ⟨e, he, hname⟩ := List.mem_map.mp hmem
      have hsome := Std.TreeMap.mem_toList_iff_getElem?_eq_some.mp he
      rw [hname, hg] at hsome
      cases hsome
    rw [if_pos rfl]
    exact congrArg some (Keyed.foldl_of_not_mem (fun f e => ProfileFields.load f e.2) hno _).symm
  | some g =>
    have he : (defaultName, g) ∈ st.groups.toList :=
      Std.TreeMap.mem_toList_iff_getElem?_eq_some.mpr hg
    exact congrArg some (Keyed.foldl_of_mem (fun f e => ProfileFields.load f e.2)
      (nodup_groups st) he _).symm

/-- A profile other than the default one comes from an ordinary group. -/
theorem lookup_of_ne {st : Settings} {n : List Char} {f : ProfileFields} (hn : n ≠ defaultName) :
    st.lookup n = some f ↔
      (n, f) ∈ (st.groups.toList.filter ordinary).map fun e => (e.1, ProfileFields.load {} e.2) := by
  simp only [Settings.lookup, List.mem_map, List.mem_filter, ordinary, Bool.and_eq_true,
    decide_eq_true_eq, Prod.mk.injEq]
  constructor
  · intro h
    split at h
    · cases h
    rename_i hmeta
    split at h
    · rename_i g hg
      cases h
      exact ⟨(n, g), ⟨Std.TreeMap.mem_toList_iff_getElem?_eq_some.mpr hg, hmeta, hn⟩, rfl, rfl⟩
    · cases h
  · rintro ⟨e, ⟨he, hmeta, -⟩, rfl, rfl⟩
    rw [if_neg hmeta, Std.TreeMap.mem_toList_iff_getElem?_eq_some.mp he]

/-- The profiles of a new manager. -/
theorem values_loadProfiles (st : Settings) :
    ((init st).loadProfiles.profiles.map values) =
      (defaultName, st.groups.toList.foldl loadDefault {}) ::
        (st.groups.toList.filter ordinary).map fun e => (e.1, ProfileFields.load {} e.2) :=
  ((loading_init st).foldl_loadGroup st.groups.toList).2.2

theorem names_loadProfiles (st : Settings) :
    ((init st).loadProfiles.profiles.map ProfileInfo.name).Nodup := by
  have hnames : (init st).loadProfiles.profiles.map ProfileInfo.name =
      ((init st).loadProfiles.profiles.map values).map Prod.fst := by
    rw [List.map_map]
    rfl
  rw [hnames, values_loadProfiles, List.map_cons, List.map_map, List.nodup_cons]
  constructor
  · intro hmem
    obtain ⟨e, he, hname⟩ := List.mem_map.mp hmem
    have ho := (List.mem_filter.mp he).2
    simp only [ordinary, Bool.and_eq_true, decide_eq_true_eq] at ho
    exact ho.2 hname
  · exact (nodup_groups st).sublist (List.filter_sublist.map Prod.fst)

theorem stored_loadProfiles (st : Settings) (v : List Char × ProfileFields) :
    v ∈ (init st).loadProfiles.profiles.map values ↔ st.lookup v.1 = some v.2 := by
  obtain ⟨n, f⟩ := v
  rw [values_loadProfiles, List.mem_cons]
  by_cases hn : n = defaultName
  · subst hn
    rw [lookup_default, Option.some.injEq, Prod.mk.injEq]
    constructor
    · rintro (⟨-, rfl⟩ | hmem)
      · rfl
      · obtain ⟨e, he, hname⟩ := List.mem_map.mp hmem
        have ho := (List.mem_filter.mp he).2
        simp only [ordinary, Bool.and_eq_true, decide_eq_true_eq] at ho
        exact absurd (congrArg Prod.fst hname) ho.2
    · intro hf
      exact .inl ⟨rfl, hf.symm⟩
  · rw [lookup_of_ne hn, Prod.mk.injEq]
    exact or_iff_right fun h => hn h.1

theorem settings_ofSettings (st : Settings) : (ofSettings st).settings = st :=
  ((loading_init st).foldl_loadGroup st.groups.toList).2.1

theorem lookup_nil {st : Settings} (hst : [] ∉ st.groups) : st.lookup [] = none := by
  have hmeta : [] ≠ metadata := by decide
  rw [Settings.lookup, if_neg hmeta, Std.TreeMap.getElem?_eq_none hst]
  rfl

/-- **A new manager agrees with its settings**, in which no group has the empty name. -/
theorem aligned_ofSettings {st : Settings} (hst : [] ∉ st.groups) : (ofSettings st).Aligned := by
  have hload := ((loading_init st).foldl_loadGroup st.groups.toList).1
  obtain ⟨d, hd, hdid⟩ := hload.default
  have hstored := stored_loadProfiles st
  have hnamed : ∀ p ∈ (ofSettings st).profiles, p.name ≠ [] := by
    intro p hp hname
    have hlook := (hstored ([], p.fields)).mp (mem_values.mpr ⟨p, hp, hname, rfl⟩)
    rw [lookup_nil hst] at hlook
    cases hlook
  refine ⟨⟨⟨hload.ids, hload.fresh⟩, names_loadProfiles st, hnamed, d, hd, hdid,
    (hload.locked d hd hdid).2⟩, ?_, ?_⟩
  · intro v
    rw [settings_ofSettings]
    exact hstored v
  rw [settings_ofSettings]
  cases hfind : (init st).loadProfiles.profiles.find? (·.name = st.selected) with
  | none =>
    have hnone : st.lookup st.selected = none := by
      apply Option.eq_none_iff_forall_ne_some.mpr
      intro f hf
      obtain ⟨p, hp, hname, -⟩ := mem_values.mp ((hstored (st.selected, f)).mpr hf)
      have := List.find?_eq_none.mp hfind p hp
      exact this (by simpa using hname)
    refine ⟨d, hd, ?_, ?_⟩
    · simp only [ofSettings, hfind]
      exact hdid
    · rw [Settings.activeName, hnone, (hload.locked d hd hdid).2]
      rfl
  | some p =>
    have hp := List.mem_of_find?_eq_some hfind
    have hname : p.name = st.selected := by simpa using List.find?_some hfind
    have hsome : st.lookup st.selected = some p.fields := by
      rw [← hname]
      exact (hstored (p.name, p.fields)).mp (mem_values.mpr ⟨p, hp, rfl, rfl⟩)
    refine ⟨p, hp, ?_, ?_⟩
    · simp only [ofSettings, hfind]
      rfl
    · rw [Settings.activeName, hsome]
      exact hname

theorem Aligned.lookup_nil {m : ProfileManager} (h : m.Aligned) : m.settings.lookup [] = none := by
  apply Option.eq_none_iff_forall_ne_some.mpr
  intro f hf
  obtain ⟨p, hp, hname, -⟩ := mem_values.mp ((h.stored ([], f)).mpr hf)
  exact h.named p hp hname

/-- What the memory and the settings agree on is read back. -/
theorem Aligned.persisted {m : ProfileManager} (h : m.Aligned) : m.Persisted := by
  have hst : [] ∉ m.settings.groups := by
    intro hmem
    have hnil : [] ≠ metadata := by decide
    have hlook := h.lookup_nil
    rw [Settings.lookup, if_neg hnil, Std.TreeMap.getElem?_eq_some_getElem hmem] at hlook
    cases hlook
  have hr := aligned_ofSettings hst
  constructor
  · apply (List.perm_ext_iff_of_nodup hr.values_nodup h.values_nodup).mpr
    intro v
    rw [hr.stored, h.stored, settings_ofSettings]
  · obtain ⟨p, hp, hname⟩ := h.profile_active
    obtain ⟨q, hq, hqname⟩ := hr.profile_active
    rw [settings_ofSettings] at hqname
    exact ⟨p, hp, q, hq, hqname.trans hname.symm⟩

end ProfileManager

end McpeLauncher.Profiles
