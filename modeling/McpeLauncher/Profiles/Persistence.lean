import McpeLauncher.Lib.Runs
import McpeLauncher.Profiles.Loading

/-!
# Profiles persist

Each operation keeps the memory and the settings in agreement, unless it is one of those that forget
a copy: the name of the active profile under `selected`, or the group of a profile.
-/

namespace McpeLauncher.Profiles
namespace ProfileManager

variable {m m' : ProfileManager}

/-! ## The claim -/

/-- The names that the claim allows: valid, not empty, and distinct from the others. -/
def Allowed (m : ProfileManager) : ProfileOp → Prop
  | .createProfile name => validateName name = true ∧ name ≠ [] ∧ ∀ p ∈ m.profiles, p.name ≠ name
  | .setName id newName =>
    validateName newName = true ∧ newName ≠ [] ∧ ∀ p ∈ m.profiles, p.id ≠ id → p.name ≠ newName
  | _ => True

/-- What an operation has to meet to be persistent. -/
def OpOk (m : ProfileManager) : ProfileOp → Prop
  | .createProfile name => name ≠ metadata ∧ name ≠ m.settings.selected
  | .setName id newName => ∀ p ∈ m.profile? id, p.name ≠ newName →
    id ≠ defaultId ∧ id ≠ m.activeProfile ∧ newName ≠ metadata ∧
      if p.name = selectedKey then m.activeProfile = defaultId else newName ≠ m.settings.selected
  | .deleteProfile id => id ≠ defaultId ∧
    ∀ p ∈ m.profile? id, p.name = selectedKey →
      m.activeProfile = id ∨ m.activeProfile = defaultId
  | .setActiveProfile _ => True
  | .edit _ fields _ => fields.Normal

/-! ## Parts of the operations -/

/-- What `save` does with a profile that is read back as it is. -/
structure Saved (m m' : ProfileManager) (p : ProfileInfo) : Prop where
  profiles : m'.profiles = m.profiles
  nextId : m'.nextId = m.nextId
  activeProfile : m'.activeProfile = m.activeProfile
  selected : m'.settings.selected = m.settings.selected
  lookup : ∀ n, m'.settings.lookup n = if n = p.name then some p.fields else m.settings.lookup n

theorem saved_of_save {p : ProfileInfo} (h : m.save p = some m') (hn : p.fields.Normal)
    (hmeta : p.name ≠ metadata) : m.Saved m' p := by
  obtain ⟨g, hg, rfl⟩ := Option.map_eq_some_iff.mp h
  refine ⟨rfl, rfl, rfl, rfl, ?_⟩
  rw [← ProfileFields.load_toGroup hn hg]
  exact Settings.lookup_insert g hmeta

theorem Saved.objects {p : ProfileInfo} (hs : m.Saved m' p) (h : m.Objects) : m'.Objects := by
  obtain ⟨hids, hfresh⟩ := h
  rw [← hs.profiles] at hids hfresh
  rw [← hs.nextId] at hfresh
  exact ⟨hids, hfresh⟩

theorem Aligned.profile_lookup (h : m.Aligned) {p : ProfileInfo} (hp : p ∈ m.profiles) :
    m.settings.lookup p.name = some p.fields :=
  (h.stored (p.name, p.fields)).mp (mem_values.mpr ⟨p, hp, rfl, rfl⟩)

theorem WellFormed.eq_of_id (h : m.WellFormed) {p q : ProfileInfo} (hp : p ∈ m.profiles)
    (hq : q ∈ m.profiles) (hid : p.id = q.id) : p = q :=
  List.inj_on_of_nodup_map h.ids hp hq hid

theorem WellFormed.eq_of_name (h : m.WellFormed) {p q : ProfileInfo} (hp : p ∈ m.profiles)
    (hq : q ∈ m.profiles) (hname : p.name = q.name) : p = q :=
  List.inj_on_of_nodup_map h.names hp hq hname

theorem WellFormed.profile?_eq_some (h : m.WellFormed) {id : Nat} {p : ProfileInfo} :
    m.profile? id = some p ↔ p ∈ m.profiles ∧ p.id = id :=
  Keyed.find?_eq_some_iff h.ids

/-- The profile of the number of `p'`, if there is one, becomes `p'`: under the new name its fields
are found, under the old one nothing, and under any other name what was there. -/
structure Replaces (m m' : ProfileManager) (p' : ProfileInfo) : Prop where
  profiles : ∀ q, q ∈ m'.profiles ↔ q = p' ∨ q ∈ m.profiles ∧ q.id ≠ p'.id
  distinct : ∀ q ∈ m.profiles, q.id ≠ p'.id → q.name ≠ p'.name
  self : m'.settings.lookup p'.name = some p'.fields
  old : ∀ q ∈ m.profiles, q.id = p'.id → q.name ≠ p'.name → m'.settings.lookup q.name = none
  other : ∀ n, n ≠ p'.name → (∀ q ∈ m.profiles, q.id = p'.id → q.name ≠ n) →
    m'.settings.lookup n = m.settings.lookup n

theorem Replaces.stored {p' : ProfileInfo} (hr : m.Replaces m' p') (h : m.Aligned)
    (v : List Char × ProfileFields) :
    v ∈ m'.profiles.map values ↔ m'.settings.lookup v.1 = some v.2 := by
  rw [mem_values]
  constructor
  · rintro ⟨q, hq, hname, hfields⟩
    rw [← hname, ← hfields]
    rcases (hr.profiles q).mp hq with rfl | ⟨hq, hne⟩
    · exact hr.self
    · rw [hr.other q.name (hr.distinct q hq hne), h.profile_lookup hq]
      intro q' hq' hid he
      exact hne ((congrArg ProfileInfo.id (h.eq_of_name hq' hq he)).symm.trans hid)
  · intro hv
    by_cases hn : v.1 = p'.name
    · rw [hn, hr.self] at hv
      exact ⟨p', (hr.profiles p').mpr (.inl rfl), hn.symm, Option.some.inj hv⟩
    · have hold : ∀ q ∈ m.profiles, q.id = p'.id → q.name ≠ v.1 := by
        intro q hq hid he
        rw [← he, hr.old q hq hid (he ▸ hn)] at hv
        cases hv
      rw [hr.other v.1 hn hold] at hv
      obtain ⟨q, hq, hname, hfields⟩ := mem_values.mp ((h.stored v).mpr hv)
      exact ⟨q, (hr.profiles q).mpr (.inr ⟨hq, fun hid => hold q hq hid hname⟩), hname, hfields⟩

/-- What is left to show after a replacement. -/
theorem Replaces.aligned {p' : ProfileInfo} (hr : m.Replaces m' p') (h : m.Aligned)
    (hobj : m'.Objects) (hnamed : p'.name ≠ []) (hdefault : p'.id = defaultId → p'.name = defaultName)
    (hactive : ∃ p ∈ m'.profiles, p.id = m'.activeProfile ∧ p.name = m'.settings.activeName) :
    m'.Aligned where
  toObjects := hobj
  names := by
    apply List.Nodup.map_on _ hobj.ids.of_map
    intro q hq q' hq' he
    rcases (hr.profiles q).mp hq with rfl | ⟨hq, hne⟩
    · rcases (hr.profiles q').mp hq' with rfl | ⟨hq', hne'⟩
      · rfl
      · exact absurd he.symm (hr.distinct q' hq' hne')
    · rcases (hr.profiles q').mp hq' with rfl | ⟨hq', hne'⟩
      · exact absurd he (hr.distinct q hq hne)
      · exact h.eq_of_name hq hq' he
  named q hq := by
    rcases (hr.profiles q).mp hq with rfl | ⟨hq, -⟩
    · exact hnamed
    · exact h.named q hq
  default := by
    by_cases hid : p'.id = defaultId
    · exact ⟨p', (hr.profiles p').mpr (.inl rfl), hid, hdefault hid⟩
    · obtain ⟨d, hd, hdid, hdname⟩ := h.default
      have hne : d.id ≠ p'.id := fun he => hid (he.symm.trans hdid)
      exact ⟨d, (hr.profiles d).mpr (.inr ⟨hd, hne⟩), hdid, hdname⟩
  stored := hr.stored h
  active := hactive

/-- Another profile than the replaced one is still active. -/
theorem Replaces.active_of_ne {p' : ProfileInfo} (hr : m.Replaces m' p') (h : m.Aligned)
    (hne : m.activeProfile ≠ p'.id) (hactive : m'.activeProfile = m.activeProfile)
    (hname : m'.settings.activeName = m.settings.activeName) :
    ∃ p ∈ m'.profiles, p.id = m'.activeProfile ∧ p.name = m'.settings.activeName := by
  obtain ⟨q, hq, hqid, hqname⟩ := h.active
  have hqne : q.id ≠ p'.id := fun he => hne (hqid.symm.trans he)
  exact ⟨q, (hr.profiles q).mpr (.inr ⟨hq, hqne⟩), hqid.trans hactive.symm,
    hqname.trans hname.symm⟩

/-- The active name stays if the selected name is found as before. -/
theorem activeName_congr {st st' : Settings} (hs : st'.selected = st.selected)
    (hl : (st'.lookup st.selected).isSome = (st.lookup st.selected).isSome) :
    st'.activeName = st.activeName := by
  rw [Settings.activeName, Settings.activeName, hs, hl]

/-- Without the root key the default profile is the active one. -/
theorem activeName_of_nil {st : Settings} (hs : st.selected = []) (hl : st.lookup [] = none) :
    st.activeName = defaultName := by
  rw [Settings.activeName, hs, hl]
  rfl

/-- The name under `selected` is that of no profile but the active one. -/
theorem Aligned.selected_ne (h : m.Aligned) {p : ProfileInfo} (hp : p ∈ m.profiles)
    (hid : p.id ≠ m.activeProfile) : p.name ≠ m.settings.selected := by
  intro he
  obtain ⟨q, hq, hqid, hqname⟩ := h.active
  have hsome : (m.settings.lookup m.settings.selected).isSome := by
    rw [← he, h.profile_lookup hp]
    rfl
  rw [Settings.activeName, if_pos hsome] at hqname
  exact hid ((congrArg ProfileInfo.id (h.eq_of_name hp hq (he.trans hqname.symm))).trans hqid)

theorem Aligned.ne_metadata (h : m.Aligned) {p : ProfileInfo} (hp : p ∈ m.profiles) :
    p.name ≠ metadata := by
  intro he
  have hlook := h.profile_lookup hp
  rw [Settings.lookup, if_pos he] at hlook
  cases hlook

theorem Aligned.ne_defaultName (h : m.Aligned) {p : ProfileInfo} (hp : p ∈ m.profiles)
    (hid : p.id ≠ defaultId) : p.name ≠ defaultName := by
  intro he
  obtain ⟨d, hd, hdid, hdname⟩ := h.default
  exact hid ((congrArg ProfileInfo.id (h.eq_of_name hp hd (he.trans hdname.symm))).trans hdid)

/-- If the default profile is active, its name is the active one. -/
theorem Aligned.active_default (h : m.Aligned) (ha : m.activeProfile = defaultId) :
    m.settings.activeName = defaultName := by
  obtain ⟨q, hq, hqid, hqname⟩ := h.active
  obtain ⟨d, hd, hdid, hdname⟩ := h.default
  rw [← hqname, h.eq_of_id hq hd (hqid.trans (ha.trans hdid.symm)), hdname]

/-! ## The operations -/

theorem Aligned.createProfile (h : m.Aligned) {name : List Char}
    (hallowed : m.Allowed (.createProfile name)) (hok : m.OpOk (.createProfile name))
    (hs : m.createProfile name = some m') : m'.Aligned := by
  obtain ⟨-, hnil, hdistinct⟩ := hallowed
  obtain ⟨hmeta, hselected⟩ := hok
  have hnormal : ProfileFields.Normal {} := by decide
  have hsaved := saved_of_save hs hnormal hmeta
  have hfresh : ∀ q ∈ m.profiles, q.id ≠ m.nextId := fun q hq => Nat.ne_of_lt (h.fresh q hq)
  have hr : m.Replaces m' { id := m.nextId, name } := by
    constructor
    case profiles =>
      intro q
      rw [hsaved.profiles, ProfileManager.pushBack, List.mem_append, List.mem_singleton, or_comm]
      exact or_congr_right (and_iff_left_of_imp (hfresh q)).symm
    case distinct => exact fun q hq _ => hdistinct q hq
    case self => exact (hsaved.lookup name).trans (if_pos rfl)
    case old => exact fun q hq hid => absurd hid (hfresh q hq)
    case other => exact fun n hn _ => (hsaved.lookup n).trans (if_neg hn)
  apply hr.aligned h
  · exact hsaved.objects (h.toObjects.pushBack rfl)
  · exact hnil
  · intro hid
    obtain ⟨d, hd, hdid, -⟩ := h.default
    exact absurd (hdid.trans hid.symm) (hfresh d hd)
  · apply hr.active_of_ne h
    · obtain ⟨p, hp, hpid, -⟩ := h.active
      exact hpid ▸ hfresh p hp
    · exact hsaved.activeProfile
    · apply activeName_congr hsaved.selected
      exact congrArg Option.isSome ((hsaved.lookup _).trans (if_neg hselected.symm))

/-- The list after one object was changed. -/
theorem mem_modify {p : ProfileInfo} (hp : p ∈ m.profiles) (p' : ProfileInfo) (hid : p'.id = p.id)
    (q : ProfileInfo) :
    q ∈ (m.modify p.id fun _ => p').profiles ↔ q = p' ∨ q ∈ m.profiles ∧ q.id ≠ p'.id := by
  simp only [modify, List.mem_map, hid]
  constructor
  · rintro ⟨r, hr, hq⟩
    split at hq
    · exact .inl hq.symm
    · rename_i hne
      subst hq
      exact .inr ⟨hr, hne⟩
  · rintro (rfl | ⟨hq, hne⟩)
    · exact ⟨p, hp, if_pos rfl⟩
    · exact ⟨q, hq, if_neg hne⟩

theorem Objects.modify (h : m.Objects) {p : ProfileInfo} (p' : ProfileInfo) (hid : p'.id = p.id) :
    (m.modify p.id fun _ => p').Objects := by
  apply h.map
  intro q
  split
  · rename_i hq
    exact hid.trans hq.symm
  · rfl

theorem Aligned.edit (h : m.Aligned) {p : ProfileInfo} (hp : p ∈ m.profiles) {fields : ProfileFields}
    {texturePatch : Int32} (hn : fields.Normal) (hs : m.edit p fields texturePatch = some m') :
    m'.Aligned := by
  have hmeta := h.ne_metadata hp
  have hsaved := saved_of_save hs hn hmeta
  generalize hp' : { p with fields, texturePatch } = p' at hsaved
  have hid : p'.id = p.id := hp' ▸ rfl
  have hname : p'.name = p.name := hp' ▸ rfl
  have hr : m.Replaces m' p' := by
    constructor
    case profiles =>
      intro q
      rw [hsaved.profiles]
      exact mem_modify hp p' hid q
    case distinct =>
      intro q hq hne he
      exact hne ((congrArg ProfileInfo.id (h.eq_of_name hq hp (he.trans hname))).trans hid.symm)
    case self => exact (hsaved.lookup p'.name).trans (if_pos rfl)
    case old =>
      intro q hq hqid hne
      exact absurd ((congrArg ProfileInfo.name (h.eq_of_id hq hp (hqid.trans hid))).trans hname.symm) hne
    case other => exact fun n hn _ => (hsaved.lookup n).trans (if_neg hn)
  apply hr.aligned h
  · exact hsaved.objects (h.toObjects.modify p' hid)
  · rw [hname]
    exact h.named p hp
  · intro hd
    obtain ⟨d, hmem, hdid, hdname⟩ := h.default
    have heq : p = d := h.eq_of_id hp hmem (hid.symm.trans (hd.trans hdid.symm))
    rw [hname, heq, hdname]
  · have hactive : m'.settings.activeName = m.settings.activeName := by
      apply activeName_congr hsaved.selected
      rw [hsaved.lookup]
      split
      · rename_i he
        rw [he, hname]
        exact (congrArg Option.isSome (h.profile_lookup hp)).symm
      · rfl
    rw [hsaved.activeProfile, hactive]
    obtain ⟨q, hq, hqid, hqname⟩ := h.active
    by_cases hqp : q.id = p'.id
    · have heq : q = p := h.eq_of_id hq hp (hqp.trans hid)
      exact ⟨p', (hr.profiles p').mpr (.inl rfl), hqp.symm.trans hqid,
        hname.trans (heq ▸ hqname)⟩
    · exact ⟨q, (hr.profiles q).mpr (.inr ⟨hq, hqp⟩), hqid, hqname⟩

/-- The active profile after the group of another one was removed. -/
theorem Aligned.activeName_remove (h : m.Aligned) {p : ProfileInfo} (hp : p ∈ m.profiles)
    (hdefault : p.id ≠ defaultId) (hactive : p.id ≠ m.activeProfile)
    (hkey : p.name = selectedKey → m.activeProfile = defaultId) :
    (m.settings.remove p.name).activeName = m.settings.activeName := by
  have hlook := Settings.lookup_remove m.settings (h.ne_defaultName hp hdefault)
  by_cases hsel : p.name = selectedKey
  · rw [h.active_default (hkey hsel)]
    apply activeName_of_nil
    · exact if_pos hsel
    · rw [hlook, if_neg (h.named p hp).symm]
      exact h.lookup_nil
  · apply activeName_congr
    · exact if_neg hsel
    · rw [hlook, if_neg (h.selected_ne hp hactive).symm]

theorem Aligned.setName (h : m.Aligned) {p : ProfileInfo} (hp : p ∈ m.profiles) {newName : List Char}
    (hnil : newName ≠ []) (hdistinct : ∀ q ∈ m.profiles, q.id ≠ p.id → q.name ≠ newName)
    (hok : p.name ≠ newName → p.id ≠ defaultId ∧ p.id ≠ m.activeProfile ∧ newName ≠ metadata ∧
      if p.name = selectedKey then m.activeProfile = defaultId else newName ≠ m.settings.selected)
    (hs : m.setName p newName = some m') : m'.Aligned := by
  unfold ProfileManager.setName at hs
  split at hs
  · cases hs
    exact h
  rename_i hne
  obtain ⟨hdefault, hactive, hmeta, hsel⟩ := hok hne
  have hnormal := Settings.lookup_normal (h.profile_lookup hp)
  have hsaved := saved_of_save hs hnormal hmeta
  have hremove := Settings.lookup_remove m.settings (h.ne_defaultName hp hdefault)
  have hlook : ∀ n, m'.settings.lookup n = if n = newName then some p.fields else
      if n = p.name then none else m.settings.lookup n := by
    intro n
    rw [← hremove n]
    exact hsaved.lookup n
  have hr : m.Replaces m' { p with name := newName } := by
    constructor
    case profiles =>
      intro q
      rw [hsaved.profiles]
      exact mem_modify hp { p with name := newName } rfl q
    case distinct => exact hdistinct
    case self => exact (hlook newName).trans (if_pos rfl)
    case old =>
      intro q hq hid hq'
      rw [h.eq_of_id hq hp hid, hlook, if_neg hne, if_pos rfl]
    case other =>
      intro n hn hold
      rw [hlook, if_neg hn, if_neg (hold p hp rfl).symm]
  apply hr.aligned h
  · have hobj : Objects { m with settings := m.settings.remove p.name } := ⟨h.ids, h.fresh⟩
    exact hsaved.objects (hobj.modify (p := p) { p with name := newName } rfl)
  · exact hnil
  · exact fun hid => absurd hid hdefault
  · apply hr.active_of_ne h hactive.symm hsaved.activeProfile
    · have hkey : p.name = selectedKey → m.activeProfile = defaultId := by
        intro he
        rwa [if_pos he] at hsel
      rw [← h.activeName_remove hp hdefault hactive hkey]
      apply activeName_congr hsaved.selected
      refine congrArg Option.isSome ((hsaved.lookup _).trans (if_neg ?_))
      by_cases he : p.name = selectedKey
      · simp only [Settings.remove, if_pos he]
        exact hnil.symm
      · simp only [Settings.remove, if_neg he] at hsel ⊢
        exact hsel.symm

theorem Aligned.setActiveProfile (h : m.Aligned) {p : ProfileInfo} (hp : p ∈ m.profiles) :
    (m.setActiveProfile p).Aligned where
  toWellFormed := ⟨⟨h.ids, h.fresh⟩, h.names, h.named, h.default⟩
  stored := h.stored
  active := by
    refine ⟨p, hp, rfl, (if_pos ?_).symm⟩
    exact congrArg Option.isSome (h.profile_lookup hp)

/-- The manager after a profile other than the default one was removed from the list and the
settings. -/
theorem Aligned.removed (h : m.Aligned) {p : ProfileInfo} (hp : p ∈ m.profiles)
    (hdefault : p.id ≠ defaultId) {m' : ProfileManager}
    (hprofiles : m'.profiles = m.profiles.eraseP (·.id = p.id)) (hnext : m'.nextId = m.nextId)
    (hlookup : ∀ n, m'.settings.lookup n = (m.settings.remove p.name).lookup n)
    (hactive : ∃ q ∈ m.profiles, q.id ≠ p.id ∧ q.id = m'.activeProfile ∧
      q.name = m'.settings.activeName) : m'.Aligned := by
  have hmem : ∀ q, q ∈ m'.profiles ↔ q ∈ m.profiles ∧ q.id ≠ p.id := by
    intro q
    rw [hprofiles]
    exact Keyed.mem_eraseP_iff h.ids
  have hsub : m'.profiles.Sublist m.profiles := hprofiles ▸ List.eraseP_sublist
  have hobj : m'.Objects := by
    refine ⟨h.ids.sublist (hsub.map _), fun q hq => ?_⟩
    rw [hnext]
    exact h.fresh q ((hmem q).mp hq).1
  have hwf : m'.WellFormed := by
    refine ⟨hobj, h.names.sublist (hsub.map _), fun q hq => h.named q ((hmem q).mp hq).1, ?_⟩
    obtain ⟨d, hd, hdid, hdname⟩ := h.default
    exact ⟨d, (hmem d).mpr ⟨hd, fun he => hdefault (he.symm.trans hdid)⟩, hdid, hdname⟩
  refine ⟨hwf, ?stored, ?active⟩
  case stored =>
    intro v
    rw [mem_values, hlookup, Settings.lookup_remove _ (h.ne_defaultName hp hdefault)]
    constructor
    · rintro ⟨q, hq, hname, hfields⟩
      obtain ⟨hq, hne⟩ := (hmem q).mp hq
      have hname' : v.1 ≠ p.name := by
        rw [← hname]
        exact fun he => hne (congrArg ProfileInfo.id (h.eq_of_name hq hp he))
      rw [if_neg hname', ← hname, ← hfields]
      exact h.profile_lookup hq
    · intro hv
      split at hv
      · cases hv
      rename_i hname'
      obtain ⟨q, hq, hname, hfields⟩ := mem_values.mp ((h.stored v).mpr hv)
      have hne : q.id ≠ p.id := by
        intro he
        exact hname' (hname.symm.trans (congrArg ProfileInfo.name (h.eq_of_id hq hp he)))
      exact ⟨q, (hmem q).mpr ⟨hq, hne⟩, hname, hfields⟩
  case active =>
    obtain ⟨q, hq, hne, hid, hname⟩ := hactive
    exact ⟨q, (hmem q).mpr ⟨hq, hne⟩, hid, hname⟩

theorem Aligned.deleteProfile (h : m.Aligned) {p : ProfileInfo} (hp : p ∈ m.profiles)
    (hdefault : p.id ≠ defaultId)
    (hkey : p.name = selectedKey → m.activeProfile = p.id ∨ m.activeProfile = defaultId)
    (hs : m.deleteProfile p = some m') : m'.Aligned := by
  unfold ProfileManager.deleteProfile at hs
  split at hs
  · obtain ⟨d, hd, rfl⟩ := Option.map_eq_some_iff.mp hs
    obtain ⟨hd, hdid⟩ := h.profile?_eq_some.mp hd
    apply h.removed hp hdefault
    case hprofiles => rfl
    case hnext => rfl
    case hlookup => exact fun n => rfl
    case hactive =>
      have hne : d.id ≠ p.id := fun he => hdefault (he.symm.trans hdid)
      have hname : d.name ≠ p.name := fun he => hne (congrArg ProfileInfo.id (h.eq_of_name hd hp he))
      refine ⟨d, hd, hne, rfl, (if_pos ?_).symm⟩
      have hlook := Settings.lookup_remove m.settings (h.ne_defaultName hp hdefault) d.name
      rw [if_neg hname, h.profile_lookup hd] at hlook
      exact congrArg Option.isSome hlook
  · rename_i hactive
    cases hs
    apply h.removed hp hdefault
    case hprofiles => rfl
    case hnext => rfl
    case hlookup => exact fun n => rfl
    case hactive =>
      obtain ⟨q, hq, hqid, hqname⟩ := h.active
      refine ⟨q, hq, fun he => hactive (hqid.symm.trans he), hqid, hqname.trans ?_⟩
      symm
      apply h.activeName_remove hp hdefault (Ne.symm hactive)
      intro he
      exact (hkey he).resolve_left hactive

/-- **One operation.** -/
theorem Aligned.step (h : m.Aligned) {op : ProfileOp} (hop : m.Allowed op ∧ m.OpOk op)
    (hs : m.step op = some m') : m'.Aligned := by
  obtain ⟨hallowed, hok⟩ := hop
  cases op with
  | createProfile name => exact h.createProfile hallowed hok hs
  | setName id newName =>
    obtain ⟨p, hp, hset⟩ := Option.bind_eq_some_iff.mp hs
    have hokp := hok p hp
    obtain ⟨hmem, rfl⟩ := h.profile?_eq_some.mp hp
    exact h.setName hmem hallowed.2.1 hallowed.2.2 hokp hset
  | deleteProfile id =>
    obtain ⟨p, hp, hdelete⟩ := Option.bind_eq_some_iff.mp hs
    have hkey := hok.2 p hp
    obtain ⟨hmem, rfl⟩ := h.profile?_eq_some.mp hp
    exact h.deleteProfile hmem hok.1 hkey hdelete
  | setActiveProfile id =>
    obtain ⟨p, hp, rfl⟩ := Option.map_eq_some_iff.mp hs
    exact h.setActiveProfile (h.profile?_eq_some.mp hp).1
  | edit id fields texturePatch =>
    obtain ⟨p, hp, hedit⟩ := Option.bind_eq_some_iff.mp hs
    exact h.edit (h.profile?_eq_some.mp hp).1 hok hedit

/-- In every run of operations that are allowed and meet the condition, from whatever settings, a
new manager has the same profiles and the same active one, in every state that is reached. -/
theorem persisted_of_meets (st : Settings) (hst : [] ∉ st.groups) (ops ops' : List ProfileOp)
    (hok : Runs.Meets ProfileManager.step (fun m op => m.Allowed op ∧ m.OpOk op) (ofSettings st)
      (ops ++ ops'))
    (m : ProfileManager) (hm : Runs.run ProfileManager.step (ofSettings st) ops = some m) :
    m.Persisted := by
  have haligned : m.Aligned := by
    apply hok.left.inv_of_run (I := Aligned) _ (aligned_ofSettings hst) hm
    intro m op m' h hop hs
    exact h.step hop hs
  exact haligned.persisted

/-- A profile with a locked version is selected, and another one is renamed. -/
def lockedAndRenamed : List ProfileOp :=
  [.createProfile ['A'], .setActiveProfile 1,
    .edit 1 { versionType := .lockedCode, versionCode := some 7, arch := ['x'] } 0,
    .createProfile ['B'], .setName 2 ['C']]

theorem lockedAndRenamed_persisted :
    ∃ m, Runs.run ProfileManager.step (ofSettings {}) lockedAndRenamed = some m ∧
      m.activeProfile = 1 ∧ m.profiles.length = 3 ∧ m.Persisted := by
  refine ⟨_, rfl, rfl, rfl, ?_⟩
  apply persisted_of_meets {} Std.TreeMap.not_mem_emptyc lockedAndRenamed []
  · refine .cons ⟨⟨by decide, by decide, by decide +kernel⟩, by decide, by decide⟩ rfl
      (.cons ⟨trivial, trivial⟩ rfl (.cons ⟨trivial, (by decide : ProfileFields.Normal _)⟩ rfl
        (.cons ⟨⟨by decide, by decide, by decide +kernel⟩, by decide, by decide +kernel⟩ rfl
          (.cons ⟨⟨by decide, by decide, by decide +kernel⟩, ?_⟩ rfl trivial))))
    intro p hp _
    obtain rfl : p = { id := 2, name := ['B'] } := Option.some.inj (hp.symm.trans rfl)
    refine ⟨by decide, by decide, by decide, ?_⟩
    decide +kernel
  · rfl

/-- The active profile is renamed. -/
def renamedActive : List ProfileOp :=
  [.createProfile ['A'], .setActiveProfile 1, .setName 1 ['B']]

/-- The name under `selected` is still the old one, and a new manager falls back to the default
profile. -/
theorem not_persisted_renamedActive :
    Runs.Meets ProfileManager.step Allowed (ofSettings {}) renamedActive ∧
    ∃ m, Runs.run ProfileManager.step (ofSettings {}) renamedActive = some m ∧
      (m.profile? m.activeProfile).map ProfileInfo.name = some ['B'] ∧
      (ofSettings m.settings).activeProfile = defaultId ∧ ¬m.Persisted := by
  constructor
  · exact .cons ⟨by decide, by decide, by decide +kernel⟩ rfl (.cons trivial rfl
      (.cons ⟨by decide, by decide, by decide +kernel⟩ rfl trivial))
  · refine ⟨_, rfl, rfl, rfl, ?_⟩
    rintro ⟨-, p, hp, q, hq, he⟩
    obtain rfl : p = { id := 1, name := ['B'] } := Option.some.inj (hp.symm.trans rfl)
    obtain rfl : q = { id := 0, name := defaultName, nameLocked := true } :=
      Option.some.inj (hq.symm.trans rfl)
    exact absurd he (by decide)

end ProfileManager
end McpeLauncher.Profiles
