import Mathlib.Data.List.Nodup
import McpeLauncher.Versions.VersionManager

/-!
# The index of the versions

The map from codes to versions and the codes of the versions say the same as long as each call
leaves a version with all of its codes or with none of them. `addVersion` does so if some ABI gets
the new code, and `removeVersion` if all codes of the version are removed, each of them once.
-/

namespace McpeLauncher.Versions

/-! ## The codes of a version -/

theorem lookup_eq_none {codes : Codes} : codes.lookup abi = none ↔ abi ∉ codes.map (·.1) := by
  rw [List.lookup_eq_none_iff, List.mem_map, not_exists]
  apply forall_congr'
  intro p
  rw [not_and, bne_iff_ne]
  exact forall_congr' fun _ => ne_comm

theorem QHashLayout.insert_perm (H : QHashLayout) {codes : Codes} (h : codes.lookup abi = none)
    (code : Int) : (H.insert codes abi code).Perm ((abi, code) :: codes) := by
  have hfilter : codes.filter (·.1 ≠ abi) = codes := by
    refine List.filter_eq_self.mpr fun p hp => decide_eq_true fun hpabi => ?_
    exact lookup_eq_none.mp h (List.mem_map.mpr ⟨p, hp, hpabi⟩)
  rw [insert, hfilter]
  exact H.perm _

namespace VersionManager
variable {H : QHashLayout} {abis : List String} {disk : String → Bool} {codes : Codes}

theorem nodup_addAbis (h : (codes.map (·.1)).Nodup) :
    ((addAbis H abis disk code codes).map (·.1)).Nodup := by
  induction abis generalizing codes with
  | nil => exact h
  | cons abi abis ih =>
    apply ih
    dsimp only
    split
    · next hadd =>
      rw [((H.insert_perm hadd.1 code).map _).nodup_iff]
      exact List.nodup_cons.mpr ⟨lookup_eq_none.mp hadd.1, h⟩
    · exact h

/-- The values are the former ones and, if an ABI got it, the new code. -/
theorem mem_values_addAbis : c ∈ (addAbis H abis disk code codes).map (·.2) ↔
    c ∈ codes.map (·.2) ∨ c = code ∧ ∃ abi ∈ abis, codes.lookup abi = none ∧ disk abi := by
  induction abis generalizing codes with
  | nil => simp [addAbis]
  | cons abi abis ih =>
    rw [addAbis, List.foldl_cons]
    apply ih.trans
    split
    · next hadd =>
      rw [((H.insert_perm hadd.1 code).map _).mem_iff, List.map_cons, List.mem_cons]
      constructor
      · rintro ((rfl | h) | ⟨rfl, _⟩)
        · exact .inr ⟨rfl, abi, .head _, hadd⟩
        · exact .inl h
        · exact .inr ⟨rfl, abi, .head _, hadd⟩
      · rintro (h | ⟨rfl, _⟩)
        · exact .inl (.inr h)
        · exact .inl (.inl rfl)
    · next hskip =>
      simp only [List.mem_cons, exists_eq_or_imp, hskip, false_or]

/-! ## The invariant -/

variable {s t : VersionManager}

/-- The version is in the map. -/
def Live (s : VersionManager) (ver : Nat) : Prop := ∃ code : Int, s.versions[code]? = some ver

/-- The map and the codes of the versions say the same, and no two versions share a directory. -/
structure Index (s : VersionManager) : Prop where
  codes : ∀ ver, s.Live ver → ∀ code, s.versions[code]? = some ver ↔ code ∈ (s.info ver).values
  directories : ∀ v w, s.Live v → s.Live w → (s.info v).directory = (s.info w).directory → v = w
  used : ∀ ver, s.Live ver → ver < s.used
  keys : ∀ ver, ((s.info ver).codes.map (·.1)).Nodup

/-- Each version has a group with its name and its codes, and each group has a version. -/
structure Holds (groups : List (String × VersionGroup)) (s : VersionManager) : Prop where
  origin : ∀ ver, s.Live ver → ∃ g, ((s.info ver).directory, g) ∈ groups ∧
    g.versionName = (s.info ver).versionName ∧ g.codes.Perm ((s.info ver).codes.map Prod.swap)
  covers : ∀ p ∈ groups, ∃ ver, s.Live ver ∧ (s.info ver).directory = p.1

/-- The same codes are there, with the same names, directories and codes of their versions. -/
def SameVersions (s t : VersionManager) : Prop :=
  ∀ code : Int, (s.versions[code]? = none ↔ t.versions[code]? = none) ∧
    ∀ v w, s.versions[code]? = some v → t.versions[code]? = some w →
      (s.info v).directory = (t.info w).directory ∧
      (s.info v).versionName = (t.info w).versionName ∧
      (s.info v).codes.Perm (t.info w).codes

/-- What the version manager says is consistent in itself, and after a restart it says the same. -/
structure Consistent (abis : List String) (s : VersionManager) : Prop where
  codes : ∀ ver, s.Live ver → ∀ code, s.versions[code]? = some ver ↔ code ∈ (s.info ver).values
  directories : ∀ v w, s.Live v → s.Live w → (s.info v).directory = (s.info w).directory → v = w
  mem_getAll : ∀ ver, ver ∈ s.getAll ↔ s.Live ver
  nodup_getAll : s.getAll.Nodup
  reload : ∀ H, s.SameVersions (s.loadVersions H abis)
  saveAndLoad : ∀ H, s.SameVersions (s.saveVersions.loadVersions H abis)

theorem live_iff : s.Live ver ↔ ∃ code, (code, ver) ∈ s.versions.toList :=
  exists_congr fun _ => Std.TreeMap.mem_toList_iff_getElem?_eq_some.symm

theorem Index.live_of_mem (h : s.Index) (hv : s.Live v) (hc : c ∈ (s.info v).values) :
    s.versions[c]? = some v :=
  (h.codes v hv c).mpr hc

theorem Index.values_ne_nil (h : s.Index) (hv : s.Live v) : (s.info v).values ≠ [] := by
  obtain ⟨c, hc⟩ := hv
  exact List.ne_nil_of_mem ((h.codes v ⟨c, hc⟩ c).mp hc)

/-! ## The list of all versions -/

theorem Index.mem_getAll (h : s.Index) : ver ∈ s.getAll ↔ s.Live ver := by
  simp only [getAll, List.mem_filterMap, Prod.exists, Option.ite_none_right_eq_some,
    Option.some.injEq]
  constructor
  · rintro ⟨code, v, hmem, _, rfl⟩
    exact live_iff.mpr ⟨code, hmem⟩
  · intro hv
    have hne := h.values_ne_nil hv
    have hcode : (s.info ver).versionCode ∈ (s.info ver).values := by
      rw [VersionInfo.versionCode, List.headD_eq_head?_getD, List.head?_eq_some_head hne]
      exact List.head_mem hne
    exact ⟨_, ver, Std.TreeMap.mem_toList_iff_getElem?_eq_some.mpr (h.live_of_mem hv hcode),
      rfl, rfl⟩

/-- A version is listed under one code only. -/
theorem nodup_getAll (s : VersionManager) : s.getAll.Nodup := by
  have hkeys := Std.TreeMap.distinct_keys_toList (t := s.versions)
  rw [getAll, List.Nodup, List.pairwise_filterMap]
  refine hkeys.imp fun {p q} hpq v hv w hw => ?_
  rintro rfl
  simp only [Option.ite_none_right_eq_some, Option.some.injEq] at hv hw
  obtain ⟨hp, rfl⟩ := hv
  obtain ⟨hq, hver⟩ := hw
  rw [hver, ← hp] at hq
  rw [hq] at hpq
  exact hpq Std.ReflCmp.compare_self

/-! ## Changes of one version -/

/-- The version `ver` gets new contents, and the map has exactly its codes for it. -/
theorem Index.set (h : s.Index) {v : VersionInfo} {versions : Std.TreeMap Int Nat} {n : Nat}
    (hother : ∀ (c : Int) w, w ≠ ver → (versions[c]? = some w ↔ s.versions[c]? = some w))
    (hver : ∀ c : Int, versions[c]? = some ver ↔ c ∈ v.values)
    (hdir : ∀ w, s.Live w → w ≠ ver → (s.info w).directory ≠ v.directory)
    (hused : s.used ≤ n) (hlt : ver < n) (hkeys : (v.codes.map (·.1)).Nodup) :
    Index { s with versions, used := n, info := Function.update s.info ver v } := by
  have hlive : ∀ {w}, w ≠ ver → (∃ c : Int, versions[c]? = some w) → s.Live w :=
    fun hw ⟨c, hc⟩ => ⟨c, (hother c _ hw).mp hc⟩
  constructor
  · intro w hw c
    by_cases hwv : w = ver
    · subst hwv
      simpa using hver c
    · simpa [hwv] using (hother c w hwv).trans (h.codes w (hlive hwv hw) c)
  · intro w w' hw hw' hdirs
    by_cases hwv : w = ver
    · by_cases hwv' : w' = ver
      · rw [hwv, hwv']
      · simp only [hwv, Function.update_self, ne_eq, hwv', not_false_eq_true,
          Function.update_of_ne] at hdirs
        exact absurd hdirs.symm (hdir w' (hlive hwv' hw') hwv')
    · by_cases hwv' : w' = ver
      · simp only [hwv', Function.update_self, ne_eq, hwv, not_false_eq_true,
          Function.update_of_ne] at hdirs
        exact absurd hdirs (hdir w (hlive hwv hw) hwv)
      · simp only [ne_eq, hwv, hwv', not_false_eq_true, Function.update_of_ne] at hdirs
        exact h.directories w w' (hlive hwv hw) (hlive hwv' hw') hdirs
  · intro w hw
    by_cases hwv : w = ver
    · exact hwv ▸ hlt
    · exact Nat.lt_of_lt_of_le (h.used w (hlive hwv hw)) hused
  · intro w
    by_cases hwv : w = ver
    · simpa [hwv] using hkeys
    · simpa [hwv] using h.keys w

/-- The version `ver` leaves the map. -/
theorem Index.remove (h : s.Index) (ver : Nat) (hinfo : t.info = s.info) (hused : t.used = s.used)
    (hvers : ∀ (c : Int) w, t.versions[c]? = some w ↔ s.versions[c]? = some w ∧ w ≠ ver) :
    t.Index := by
  have hlive : ∀ {w}, t.Live w → s.Live w ∧ w ≠ ver :=
    fun ⟨c, hc⟩ => ⟨⟨c, ((hvers c _).mp hc).1⟩, ((hvers c _).mp hc).2⟩
  constructor
  · intro w hw c
    rw [hvers, hinfo, and_iff_left (hlive hw).2]
    exact h.codes w (hlive hw).1 c
  · intro w w' hw hw' hdirs
    rw [hinfo] at hdirs
    exact h.directories w w' (hlive hw).1 (hlive hw').1 hdirs
  · intro w hw
    exact hused ▸ h.used w (hlive hw).1
  · intro w
    exact hinfo ▸ h.keys w

/-! ## Saving and loading -/

/-- The settings file is up to date. -/
structure Inv (s : VersionManager) : Prop extends Index s where
  holds : s.Holds s.settings.toList

theorem Index.saveVersions (h : s.Index) : s.saveVersions.Inv := by
  have hget (ver : Nat) (hv : s.Live ver) :
      s.saveVersions.settings[(s.info ver).directory]? = some (group (s.info ver)) := by
    obtain ⟨c, hc⟩ := live_iff.mp hv
    refine TreeMaps.getElem?_foldl_insert_of_eq (f := fun p : Int × Nat => (s.info p.2).directory)
      ⟨(c, ver), hc, rfl⟩ (fun p hp hdir => ?_) ∅
    rw [h.directories p.2 ver (live_iff.mpr ⟨p.1, hp⟩) hv hdir]
  refine { toIndex := { h with }, holds := ⟨fun ver hv => ?_, fun p hp => ?_⟩ }
  · exact ⟨group (s.info ver), Std.TreeMap.mem_toList_iff_getElem?_eq_some.mpr (hget ver hv), rfl,
      .refl _⟩
  · by_contra hnone
    have hempty : s.saveVersions.settings[p.1]? = (∅ : Std.TreeMap String VersionGroup)[p.1]? := by
      refine TreeMaps.getElem?_foldl_insert_of_ne
        (f := fun p : Int × Nat => (s.info p.2).directory) (fun q hq hdir => ?_) ∅
      exact hnone ⟨q.2, live_iff.mpr ⟨q.1, hq⟩, hdir⟩
    rw [Std.TreeMap.mem_toList_iff_getElem?_eq_some.mp hp] at hempty
    simp at hempty

theorem mem_swap_values {v : VersionInfo} {g : VersionGroup}
    (h : g.codes.Perm (v.codes.map Prod.swap)) : c ∈ g.codes.map (·.1) ↔ c ∈ v.values := by
  rw [(h.map _).mem_iff, List.map_map]
  rfl

/-- Two versions managers that hold the same groups have the same versions. -/
theorem Holds.exists_same {c : Int} (hs : s.Index) (ht : t.Index) (hgs : s.Holds groups)
    (hgt : t.Holds groups) (hkeys : (groups.map (·.1)).Nodup) (hv : s.versions[c]? = some v) :
    ∃ w, t.versions[c]? = some w ∧ (s.info v).directory = (t.info w).directory ∧
      (s.info v).versionName = (t.info w).versionName ∧
      (s.info v).codes.Perm (t.info w).codes := by
  obtain ⟨g, hg, hname, hcodes⟩ := hgs.origin v ⟨c, hv⟩
  obtain ⟨w, hw, hdir⟩ := hgt.covers _ hg
  obtain ⟨g', hg', hname', hcodes'⟩ := hgt.origin w hw
  have hgg : g' = g := by
    have := List.inj_on_of_nodup_map hkeys hg' hg hdir
    exact congrArg Prod.snd this
  subst hgg
  have hperm : (s.info v).codes.Perm (t.info w).codes := by
    have := (hcodes.symm.trans hcodes').map Prod.swap
    simpa using this
  have hc : c ∈ (t.info w).values :=
    (hperm.map _).mem_iff.mp ((hs.codes v ⟨c, hv⟩ c).mp hv)
  exact ⟨w, ht.live_of_mem hw hc, hdir.symm, hname.symm.trans hname', hperm⟩

theorem Holds.same (hs : s.Index) (ht : t.Index) (hgs : s.Holds groups) (hgt : t.Holds groups)
    (hkeys : (groups.map (·.1)).Nodup) : s.SameVersions t := by
  intro c
  constructor
  · constructor
    · intro hnone
      by_contra hsome
      obtain ⟨w, hw⟩ := Option.ne_none_iff_exists'.mp hsome
      obtain ⟨v, hv, _⟩ := hgt.exists_same ht hs hgs hkeys hw
      exact absurd (hnone.symm.trans hv) (by simp)
    · intro hnone
      by_contra hsome
      obtain ⟨v, hv⟩ := Option.ne_none_iff_exists'.mp hsome
      obtain ⟨w, hw, _⟩ := hgs.exists_same hs ht hgt hkeys hv
      exact absurd (hnone.symm.trans hw) (by simp)
  · intro v w hv hw
    obtain ⟨w', hw', hsame⟩ := hgs.exists_same hs ht hgt hkeys hv
    cases hw.symm.trans hw'
    exact hsame

/-- The codes read from an array with different ABIs. -/
theorem perm_foldl_insert {l : List (Int × String)} (hl : (l.map (·.2)).Nodup)
    (hnew : ∀ p ∈ l, p.2 ∉ codes.map (·.1)) :
    (l.foldl (fun codes (code, arch) => H.insert codes arch code) codes).Perm
      (l.map Prod.swap ++ codes) := by
  induction l generalizing codes with
  | nil => exact .refl _
  | cons p l ih =>
    obtain ⟨hp, hl⟩ := List.nodup_cons.mp hl
    have hinsert := H.insert_perm (lookup_eq_none.mpr (hnew p (.head l))) p.1
    have hrest : ∀ q ∈ l, q.2 ∉ (H.insert codes p.2 p.1).map (·.1) := by
      intro q hq
      rw [(hinsert.map _).mem_iff, List.map_cons, List.mem_cons]
      rintro (heq | hmem)
      · exact hp (List.mem_map.mpr ⟨q, hq, heq⟩)
      · exact hnew q (.tail p hq) hmem
    calc
      List.Perm _ (l.map Prod.swap ++ H.insert codes p.2 p.1) := ih hl hrest
      List.Perm _ (l.map Prod.swap ++ (p.2, p.1) :: codes) := hinsert.append_left _
      List.Perm _ ((p.2, p.1) :: (l.map Prod.swap ++ codes)) := List.perm_middle

/-- A group can be loaded next to others: it has codes, its ABIs differ, and neither its directory
nor its codes are theirs. -/
structure Fresh (done : List (String × VersionGroup)) (p : String × VersionGroup) : Prop where
  codes_ne_nil : p.2.codes ≠ []
  nodup : (p.2.codes.map (·.2)).Nodup
  directory : ∀ q ∈ done, q.1 ≠ p.1
  disjoint : ∀ q ∈ done, ∀ c ∈ q.2.codes.map (·.1), c ∉ p.2.codes.map (·.1)

theorem perm_ofGroup (hp : Fresh done p) :
    p.2.codes.Perm ((ofGroup H p.1 p.2).codes.map Prod.swap) := by
  have hperm : (ofGroup H p.1 p.2).codes.Perm (p.2.codes.map Prod.swap ++ []) :=
    perm_foldl_insert hp.nodup (by simp)
  rw [List.append_nil] at hperm
  have hswap := (hperm.map Prod.swap).symm
  rwa [List.map_map, Prod.swap_swap_eq, List.map_id] at hswap

theorem getElem?_loadCodes (p : String × VersionGroup) (c : Int) :
    (loadCodes H t p.1 p.2).versions[c]? =
      if c ∈ p.2.codes.map (·.1) then some t.used else t.versions[c]? := by
  split
  · next hc =>
    obtain ⟨q, hq, hqc⟩ := List.mem_map.mp hc
    exact TreeMaps.getElem?_foldl_insert_of_eq ⟨q, hq, hqc⟩ (fun _ _ _ => rfl) _
  · next hc =>
    exact TreeMaps.getElem?_foldl_insert_of_ne
      (fun q hq hqc => hc (List.mem_map.mpr ⟨q, hq, hqc⟩)) _

/-- The versions that are there keep their codes. -/
theorem Holds.getElem?_loadCodes_of_ne (ht : t.Index) (hgt : t.Holds done) (hp : Fresh done p)
    (hw : w ≠ t.used) (c : Int) :
    (VersionManager.loadCodes H t p.1 p.2).versions[c]? = some w ↔ t.versions[c]? = some w := by
  rw [getElem?_loadCodes]
  split
  · next hc =>
    refine iff_of_false (fun h => hw (Option.some.inj h).symm) fun h => ?_
    obtain ⟨g, hg, _, hcodes⟩ := hgt.origin w ⟨c, h⟩
    exact hp.disjoint _ hg c ((mem_swap_values hcodes).mpr ((ht.codes w ⟨c, h⟩ c).mp h)) hc
  · rfl

theorem Index.loadCodes (ht : t.Index) (hgt : t.Holds done) (hp : Fresh done p) :
    (VersionManager.loadCodes H t p.1 p.2).Index := by
  refine ht.set (fun c w hw => hgt.getElem?_loadCodes_of_ne (H := H) ht hp hw c) (fun c => ?_)
    (fun w hw _ => ?_) (Nat.le_succ _) (Nat.lt_succ_self _) ?_
  · refine Iff.trans ?_ (mem_swap_values (perm_ofGroup hp))
    have hget := getElem?_loadCodes (H := H) (t := t) p c
    apply (Eq.congr_left hget).trans
    split
    · next hc => exact iff_of_true rfl hc
    · next hc => exact iff_of_false (fun h => absurd (ht.used _ ⟨c, h⟩) (Nat.lt_irrefl _)) hc
  · obtain ⟨g, hg, _⟩ := hgt.origin w hw
    exact hp.directory _ hg
  · have hnodup := ((perm_ofGroup (H := H) hp).map (·.2)).nodup_iff.mp hp.nodup
    rwa [List.map_map] at hnodup

theorem Holds.loadCodes (ht : t.Index) (hgt : t.Holds done) (hp : Fresh done p) :
    (VersionManager.loadCodes H t p.1 p.2).Holds (done ++ [p]) := by
  have hnew : (VersionManager.loadCodes H t p.1 p.2).info t.used = ofGroup H p.1 p.2 :=
    Function.update_self ..
  have hold {w : Nat} (hw : w ≠ t.used) :
      (VersionManager.loadCodes H t p.1 p.2).info w = t.info w :=
    Function.update_of_ne hw ..
  constructor
  · rintro w ⟨c, hc⟩
    by_cases hw : w = t.used
    · subst hw
      rw [hnew]
      exact ⟨p.2, List.mem_append_right _ (.head _), rfl, perm_ofGroup hp⟩
    · rw [hold hw]
      obtain ⟨g, hg, hrest⟩ := hgt.origin w ⟨c, (hgt.getElem?_loadCodes_of_ne ht hp hw c).mp hc⟩
      exact ⟨g, List.mem_append_left _ hg, hrest⟩
  · intro q hq
    rcases List.mem_append.mp hq with hq | hq
    · obtain ⟨w, ⟨c, hc⟩, hdir⟩ := hgt.covers q hq
      have hw : w ≠ t.used := Nat.ne_of_lt (ht.used w ⟨c, hc⟩)
      exact ⟨w, ⟨c, (hgt.getElem?_loadCodes_of_ne ht hp hw c).mpr hc⟩, by rw [hold hw, hdir]⟩
    · obtain ⟨a, ha⟩ := List.exists_mem_of_ne_nil _ hp.codes_ne_nil
      refine ⟨t.used, ⟨a.1, ?_⟩, by rw [hnew, List.mem_singleton.mp hq]; rfl⟩
      rw [getElem?_loadCodes, if_pos (List.mem_map.mpr ⟨a, ha, rfl⟩)]

/-- The groups of the settings can be loaded one after the other. -/
theorem Holds.foldl_loadGroup (H : QHashLayout) (abis : List String) (ht : t.Index)
    (hgt : t.Holds done)
    (hfresh : ∀ l p r, groups = l ++ p :: r → Fresh (done ++ l) p) :
    (groups.foldl (loadGroup H abis) t).Index ∧
      (groups.foldl (loadGroup H abis) t).Holds (done ++ groups) := by
  induction groups generalizing done t with
  | nil => exact ⟨ht, by rwa [List.append_nil]⟩
  | cons p groups ih =>
    have hp : Fresh done p := by
      have := hfresh [] p groups rfl
      rwa [List.append_nil] at this
    have hload : loadGroup H abis t p = VersionManager.loadCodes H t p.1 p.2 :=
      if_pos hp.codes_ne_nil
    rw [List.foldl_cons, hload, List.append_cons]
    apply ih (ht.loadCodes hgt hp) (hgt.loadCodes ht hp)
    intro l q r h
    have := hfresh (p :: l) q r (by rw [h]; rfl)
    rwa [List.append_cons] at this

/-- The groups of a version manager can be loaded. -/
theorem Holds.fresh (hs : s.Index) (hgs : s.Holds groups) (hkeys : (groups.map (·.1)).Nodup)
    (h : groups = l ++ p :: r) : Fresh l p := by
  subst h
  have hmem : p ∈ l ++ p :: r := List.mem_append_right _ (.head _)
  have hdiff : ∀ q ∈ l, q.1 ≠ p.1 := by
    intro q hq heq
    rw [List.map_append, List.map_cons, List.nodup_append] at hkeys
    exact hkeys.2.2 q.1 (List.mem_map.mpr ⟨q, hq, rfl⟩) p.1 (.head _) heq
  have hgroup : ∀ q ∈ l ++ p :: r, ∃ v, s.Live v ∧ (s.info v).directory = q.1 ∧
      q.2.codes.Perm ((s.info v).codes.map Prod.swap) := by
    intro q hq
    obtain ⟨v, hv, hdir⟩ := hgs.covers q hq
    obtain ⟨g, hg, _, hcodes⟩ := hgs.origin v hv
    have hqg := List.inj_on_of_nodup_map hkeys hg hq hdir
    exact ⟨v, hv, hdir, by rw [← hqg]; exact hcodes⟩
  obtain ⟨v, hv, hdir, hcodes⟩ := hgroup p hmem
  refine ⟨fun hnil => ?_, ?_, hdiff, fun q hq c hc hcp => ?_⟩
  · have hvnil := hs.values_ne_nil hv
    rw [hnil, List.nil_perm, List.map_eq_nil_iff] at hcodes
    exact hvnil (by rw [VersionInfo.values, hcodes]; rfl)
  · rw [(hcodes.map _).nodup_iff, List.map_map]
    exact hs.keys v
  · obtain ⟨w, hw, hdir', hcodes'⟩ := hgroup q (List.mem_append_left _ hq)
    have hvw := (hs.live_of_mem hv ((mem_swap_values hcodes).mp hcp)).symm.trans
      (hs.live_of_mem hw ((mem_swap_values hcodes').mp hc))
    cases hvw
    exact hdiff q hq (hdir'.symm.trans hdir)

theorem settings_foldl_loadGroup (groups : List (String × VersionGroup)) :
    (groups.foldl (loadGroup H abis) t).settings = t.settings := by
  induction groups generalizing t with
  | nil => rfl
  | cons p groups ih =>
    rw [List.foldl_cons, ih]
    unfold loadGroup loadMigrated
    split
    · rfl
    · split
      · split
        · rfl
        · rfl
      · rfl

theorem index_initial (disk : String → String → Bool) : (initial disk).Index := by
  have hnone : ∀ ver, ¬(initial disk).Live ver := by
    rintro ver ⟨c, hc⟩
    simp [initial] at hc
  exact ⟨fun v hv => absurd hv (hnone v), fun v w hv => absurd hv (hnone v),
    fun v hv => absurd hv (hnone v), fun v => .nil⟩

theorem holds_initial (disk : String → String → Bool) : (initial disk).Holds [] := by
  refine ⟨?_, fun p hp => absurd hp List.not_mem_nil⟩
  rintro ver ⟨c, hc⟩
  simp [initial] at hc

theorem nodup_keys (settings : Std.TreeMap String VersionGroup) :
    (settings.toList.map (·.1)).Nodup := by
  rw [List.Nodup, List.pairwise_map]
  refine (Std.TreeMap.distinct_keys_toList (t := settings)).imp fun {p q} hpq heq => hpq ?_
  rw [heq]
  exact Std.ReflCmp.compare_self

/-- A restart gives the same versions. -/
theorem Inv.loadVersions (h : s.Inv) (H : QHashLayout) (abis : List String) :
    (s.loadVersions H abis).Inv ∧ s.SameVersions (s.loadVersions H abis) := by
  have hempty : Index { initial s.disk with settings := s.settings } := { index_initial s.disk with }
  have hnil : Holds [] { initial s.disk with settings := s.settings } :=
    { holds_initial s.disk with }
  have hfresh (l) (p) (r) (hl : s.settings.toList = l ++ p :: r) : Fresh ([] ++ l) p :=
    h.holds.fresh h.toIndex (nodup_keys _) hl
  obtain ⟨hindex, hholds⟩ := hnil.foldl_loadGroup H abis hempty hfresh
  refine ⟨⟨hindex, ?_⟩, h.holds.same h.toIndex hindex hholds (nodup_keys _)⟩
  rw [VersionManager.loadVersions, settings_foldl_loadGroup]
  exact hholds

theorem Inv.consistent (h : s.Inv) (abis : List String) : s.Consistent abis where
  codes := h.codes
  directories := h.directories
  mem_getAll := fun _ => h.mem_getAll
  nodup_getAll := s.nodup_getAll
  reload := fun H => (h.loadVersions H abis).2
  saveAndLoad := fun H => (h.toIndex.saveVersions.loadVersions H abis).2

/-! ## Adding -/

theorem findDirectory_eq_some (h : s.findDirectory d = some ver) :
    s.Live ver ∧ (s.info ver).directory = d := by
  have hmem := List.mem_of_find?_eq_some h
  have hdir := List.find?_some h
  obtain ⟨p, hp, rfl⟩ := List.mem_map.mp hmem
  exact ⟨live_iff.mpr ⟨p.1, hp⟩, of_decide_eq_true hdir⟩

theorem findDirectory_eq_none (h : s.findDirectory d = none) (hv : s.Live ver) :
    (s.info ver).directory ≠ d := by
  obtain ⟨c, hc⟩ := live_iff.mp hv
  have hnot := List.find?_eq_none.mp h ver (List.mem_map.mpr ⟨_, hc, rfl⟩)
  simpa using hnot

theorem getElem?_insert_eq_some {c code : Int} {ver w : Nat} :
    (s.versions.insert code ver)[c]? = some w ↔
      if c = code then w = ver else s.versions[c]? = some w := by
  simp only [Std.TreeMap.getElem?_insert, Std.LawfulEqCmp.compare_eq_iff_eq]
  by_cases hc : c = code
  · rw [if_pos hc, if_pos hc.symm, Option.some.injEq, eq_comm]
  · rw [if_neg hc, if_neg (Ne.symm hc)]

/-- A new code changes nothing for the versions that do not get it. -/
theorem getElem?_insert_of_ne {c code : Int} {ver w : Nat} (hcode : s.versions[code]? = none)
    (hw : w ≠ ver) :
    (s.versions.insert code ver)[c]? = some w ↔ s.versions[c]? = some w := by
  rw [getElem?_insert_eq_some]
  split
  · next hc => exact iff_of_false hw (by simp [hc, hcode])
  · rfl

/-- What `addVersion` needs: a code that is there belongs to the only version with the directory,
or a new code goes to some ABI that has a library and no code yet. -/
def AddOk (abis : List String) (s : VersionManager) (directory : String) (code : Int) : Prop :=
  match s.versions[code]? with
  | some ver => ∀ w, s.Live w → (s.info w).directory = directory → w = ver
  | none => ∃ abi ∈ abis, s.disk directory abi ∧
      ∀ w, s.Live w → (s.info w).directory = directory → (s.info w).codes.lookup abi = none

theorem Index.addVersion (h : s.Index) (hok : AddOk abis s d code) :
    (s.addVersion H abis d name code).Inv := by
  apply Index.saveVersions
  unfold AddOk at hok
  cases hcode : s.versions[code]? with
  | some ver =>
    rw [hcode] at hok
    have hlive : s.Live ver := ⟨code, hcode⟩
    refine h.set (fun c w _ => Iff.rfl) (fun c => ?_) (fun w hw hne hdir => hne (hok w hw hdir))
      (Nat.le_refl _) (h.used ver hlive) (nodup_addAbis (h.keys ver))
    -- the code is one of the version's already
    refine (h.codes ver hlive c).trans (Iff.trans ?_ mem_values_addAbis.symm)
    refine ⟨.inl, ?_⟩
    rintro (hc | ⟨rfl, _⟩)
    · exact hc
    · exact (h.codes ver hlive c).mp hcode
  | none =>
    rw [hcode] at hok
    obtain ⟨abi, habi, hlib, hfree⟩ := hok
    cases hdir : s.findDirectory d with
    | some ver =>
      obtain ⟨hlive, hd⟩ := findDirectory_eq_some hdir
      refine h.set (fun c w hw => getElem?_insert_of_ne hcode hw) (fun c => ?_)
        (fun w hw hne hwd => ?_) (Nat.le_refl _) (h.used ver hlive) (nodup_addAbis (h.keys ver))
      · refine getElem?_insert_eq_some.trans (Iff.trans ?_ mem_values_addAbis.symm)
        split
        · next hc => exact iff_of_true rfl (.inr ⟨hc, abi, habi, hfree ver hlive hd, hlib⟩)
        · next hc =>
          rw [h.codes ver hlive c]
          exact ⟨.inl, fun h => h.resolve_right fun hand => hc hand.1⟩
      · exact hne (h.directories w ver hw hlive (hwd.trans hd.symm))
    | none =>
      simp only [Function.update_idem, Function.update_self]
      refine h.set (fun c w hw => getElem?_insert_of_ne hcode hw) (fun c => ?_)
        (fun w hw _ => findDirectory_eq_none hdir hw) (Nat.le_succ _) (Nat.lt_succ_self _)
        (nodup_addAbis .nil)
      · refine getElem?_insert_eq_some.trans (Iff.trans ?_ mem_values_addAbis.symm)
        split
        · next hc => exact iff_of_true rfl (.inr ⟨hc, abi, habi, rfl, hlib⟩)
        · next hc =>
          refine iff_of_false (fun hget => ?_) ?_
          · exact absurd (h.used _ ⟨c, hget⟩) (Nat.lt_irrefl _)
          · rintro (hmem | ⟨rfl, _⟩)
            · exact absurd hmem List.not_mem_nil
            · exact hc rfl

/-! ## Removing -/

theorem getElem?_erase (s : VersionManager) (code c : Int) :
    (s.erase code).versions[c]? = if c = code then none else s.versions[c]? := by
  simp only [erase, Std.TreeMap.getElem?_erase, Std.LawfulEqCmp.compare_eq_iff_eq]
  exact if_congr eq_comm rfl rfl

/-- What is left in the map after the removal of some codes. -/
def Erased (codes : List Int) (s t : VersionManager) : Prop :=
  t.info = s.info ∧ t.used = s.used ∧
    ∀ c : Int, t.versions[c]? = if c ∈ codes then none else s.versions[c]?

theorem Erased.cons (h : Erased cs (s.erase code) t) : Erased (code :: cs) s t := by
  refine ⟨h.1, h.2.1, fun c => ?_⟩
  rw [h.2.2, getElem?_erase]
  by_cases hc : c = code
  · simp [hc]
  · simp [hc]

/-- A version whose codes are removed leaves the index. -/
theorem Erased.index (h : Erased cs s t) (hs : s.Index) (hv : s.Live ver)
    (hall : ∀ c, c ∈ cs ↔ c ∈ (s.info ver).values) : t.Index := by
  apply hs.remove ver h.1 h.2.1
  intro c w
  rw [h.2.2]
  split
  · next hc =>
    have hcode := hs.live_of_mem hv ((hall c).mp hc)
    exact iff_of_false (by simp) fun hw => hw.2 (Option.some.inj (hw.1.symm.trans hcode))
  · next hc =>
    refine (and_iff_left_of_imp ?_).symm
    rintro hw rfl
    exact hc ((hall c).mpr ((hs.codes w hv c).mp hw))

theorem Erased.index_nil (h : Erased [] s t) (hs : s.Index) : t.Index := by
  apply hs.remove s.used h.1 h.2.1
  intro c w
  rw [h.2.2, if_neg List.not_mem_nil]
  exact (and_iff_left_of_imp fun hw => Nat.ne_of_lt (hs.used w ⟨c, hw⟩)).symm

/-- Different codes of a version are all removed. -/
theorem removeCodes_spec {codes : List Int} (hcodes : ∀ c ∈ codes, s.versions[c]? = some ver)
    (hnodup : codes.Nodup) : ∃ t, removeCodes ver codes s = some (true, t) ∧ Erased codes s t := by
  induction codes generalizing s with
  | nil => exact ⟨s, rfl, rfl, rfl, by simp⟩
  | cons code codes ih =>
    obtain ⟨hnot, hnodup⟩ := List.nodup_cons.mp hnodup
    have hrest : ∀ c ∈ codes,
        ((s.removeDirectory (s.info ver).directory).erase code).versions[c]? = some ver := by
      intro c hc
      have hne : c ≠ code := fun h => hnot (h ▸ hc)
      rw [getElem?_erase, if_neg hne]
      exact hcodes c (.tail _ hc)
    obtain ⟨t, ht, herased⟩ := ih hrest hnodup
    refine ⟨t, ?_, Erased.cons (s := s) herased⟩
    rw [removeCodes, hcodes code (.head _)]
    simpa using ht

/-- The codes that the ABIs of a list have, in its order. -/
def codesOf (v : VersionInfo) (abis : List String) : List Int :=
  abis.filterMap fun abi => v.codes.lookup abi

theorem removeAbis_spec (hcodes : ∀ c ∈ codesOf (s.info ver) abis, s.versions[c]? = some ver)
    (hnodup : (codesOf (s.info ver) abis).Nodup) :
    ∃ t, removeAbis ver abis s = some t ∧ Erased (codesOf (s.info ver) abis) s t := by
  induction abis generalizing s with
  | nil => exact ⟨s, rfl, rfl, rfl, by simp [codesOf]⟩
  | cons abi abis ih =>
    rw [removeAbis]
    cases habi : (s.info ver).codes.lookup abi with
    | none =>
      have hskip : codesOf (s.info ver) (abi :: abis) = codesOf (s.info ver) abis :=
        List.filterMap_cons_none habi
      rw [hskip] at hcodes hnodup ⊢
      exact ih hcodes hnodup
    | some code =>
      have hcons : codesOf (s.info ver) (abi :: abis) = code :: codesOf (s.info ver) abis :=
        List.filterMap_cons_some habi
      rw [hcons] at hcodes hnodup ⊢
      obtain ⟨hnot, hnodup⟩ := List.nodup_cons.mp hnodup
      have hrest : ∀ c ∈ codesOf (s.info ver) abis, (s.erase code).versions[c]? = some ver := by
        intro c hc
        have hne : c ≠ code := fun h => hnot (h ▸ hc)
        rw [getElem?_erase, if_neg hne]
        exact hcodes c (.tail _ hc)
      obtain ⟨t, ht, herased⟩ := ih (s := s.erase code) hrest hnodup
      refine ⟨t, ?_, herased.cons⟩
      simp only [hcodes code (.head _), ne_eq, not_true_eq_false, if_false]
      exact ht

/-- Codes that belong to other versions now are not removed. -/
theorem removeAbis_other (hlive : ¬s.Live ver)
    (hcodes : ∀ c ∈ codesOf (s.info ver) abis, s.versions[c]? ≠ none) :
    removeAbis ver abis s = some s := by
  induction abis with
  | nil => rfl
  | cons abi abis ih =>
    rw [removeAbis]
    cases habi : (s.info ver).codes.lookup abi with
    | none =>
      have hskip : codesOf (s.info ver) (abi :: abis) = codesOf (s.info ver) abis :=
        List.filterMap_cons_none habi
      rw [hskip] at hcodes
      exact ih hcodes
    | some code =>
      have hcons : codesOf (s.info ver) (abi :: abis) = code :: codesOf (s.info ver) abis :=
        List.filterMap_cons_some habi
      rw [hcons] at hcodes
      obtain ⟨val, hval⟩ := Option.ne_none_iff_exists'.mp (hcodes code (.head _))
      have hne : val ≠ ver := fun h => hlive ⟨code, h ▸ hval⟩
      simp only [hval, ne_eq, hne, not_false_eq_true, if_true]
      exact ih fun c hc => hcodes c (.tail _ hc)

/-- What `removeVersion` needs: the ABIs of the version have different codes, and of a version that
is gone already the first code belongs to another one. -/
def RemoveOk (s : VersionManager) (ver : Nat) : Prop :=
  (s.Live ver → (s.info ver).values.Nodup) ∧
    (¬s.Live ver → (s.info ver).values = [] ∨ s.versions[(s.info ver).versionCode]? ≠ none)

/-- What the removal of ABIs needs: none of them has a code, or their codes are different and are
all codes of the version. Of a version that is gone already the codes belong to others. -/
def RemoveAbisOk (s : VersionManager) (ver : Nat) (abis : List String) : Prop :=
  (s.Live ver → codesOf (s.info ver) abis = [] ∨ (codesOf (s.info ver) abis).Nodup ∧
      ∀ c ∈ (s.info ver).values, c ∈ codesOf (s.info ver) abis) ∧
    (¬s.Live ver → ∀ c ∈ codesOf (s.info ver) abis, s.versions[c]? ≠ none)

theorem mem_values_of_codesOf {v : VersionInfo} (h : c ∈ codesOf v abis) : c ∈ v.values := by
  obtain ⟨abi, _, hc⟩ := List.mem_filterMap.mp h
  obtain ⟨l, r, hl, _⟩ := List.lookup_eq_some_iff.mp hc
  rw [VersionInfo.values, hl]
  simp

theorem Inv.removeVersion (h : s.Inv) (hok : s.RemoveOk ver) :
    ∃ t, s.removeVersion (some ver) = some t ∧ t.Inv ∧
      (s.Live ver → ∀ c ∈ (s.info ver).values, t.versions[c]? = none) := by
  by_cases hv : s.Live ver
  · obtain ⟨t, ht, herased⟩ :=
      removeCodes_spec (fun c hc => h.live_of_mem hv hc) (hok.1 hv)
    refine ⟨t.saveVersions, ?_, (herased.index h.toIndex hv fun c => Iff.rfl).saveVersions, ?_⟩
    · simp [VersionManager.removeVersion, ht]
    · intro _ c hc
      exact (herased.2.2 c).trans (if_pos hc)
  · cases hvalues : (s.info ver).values with
    | nil =>
      refine ⟨s.saveVersions, ?_, h.toIndex.saveVersions, fun hlive => absurd hlive hv⟩
      simp [VersionManager.removeVersion, hvalues, removeCodes]
    | cons code codes =>
      -- the first code belongs to another version, so the loop is left at once
      have hother := (hok.2 hv).resolve_left (by simp [hvalues])
      obtain ⟨val, hval⟩ := Option.ne_none_iff_exists'.mp hother
      have hcode : s.versions[code]? = some val := by
        rwa [VersionInfo.versionCode, hvalues] at hval
      have hne : val ≠ ver := fun heq => hv ⟨_, heq ▸ hval⟩
      refine ⟨s, ?_, h, fun hlive => absurd hlive hv⟩
      simp [VersionManager.removeVersion, hvalues, removeCodes, hcode, hne]

theorem Inv.removeVersionAbis (h : s.Inv) (hok : s.RemoveAbisOk ver abis) :
    ∃ t, s.removeVersionAbis (some ver) abis = some t ∧ t.Inv ∧
      (s.Live ver → ∀ c ∈ codesOf (s.info ver) abis, t.versions[c]? = none) := by
  by_cases hv : s.Live ver
  · have hnodup : (codesOf (s.info ver) abis).Nodup := by
      rcases hok.1 hv with hnil | hall
      · rw [hnil]
        exact .nil
      · exact hall.1
    obtain ⟨t, ht, herased⟩ :=
      removeAbis_spec (fun c hc => h.live_of_mem hv (mem_values_of_codesOf hc)) hnodup
    have hindex : t.Index := by
      rcases hok.1 hv with hnil | hall
      · exact Erased.index_nil (hnil ▸ herased) h.toIndex
      · exact herased.index h.toIndex hv fun c => ⟨mem_values_of_codesOf, hall.2 c⟩
    refine ⟨t.saveVersions, ?_, hindex.saveVersions, ?_⟩
    · simp [VersionManager.removeVersionAbis, ht]
    · intro _ c hc
      exact (herased.2.2 c).trans (if_pos hc)
  · refine ⟨s.saveVersions, ?_, h.toIndex.saveVersions, fun hlive => absurd hlive hv⟩
    simp [VersionManager.removeVersionAbis, removeAbis_other hv (hok.2 hv)]

/-! ## Runs -/

/-- The calls, changes of the files by others, and a restart. -/
inductive Call
  | addVersion (directory versionName : String) (code : Int)
  | removeVersion (version : Option Nat)
  | removeVersionAbis (version : Option Nat) (abis : List String)
  | files (disk : String → String → Bool)
  | restart

/-- None if the behaviour is not defined. -/
def step (H : QHashLayout) (abis : List String) (s : VersionManager) : Call → Option VersionManager
  | .addVersion directory versionName code => some (s.addVersion H abis directory versionName code)
  | .removeVersion version => s.removeVersion version
  | .removeVersionAbis version l => s.removeVersionAbis version l
  | .files disk => some { s with disk }
  | .restart => some (s.loadVersions H abis)

/-- What a call needs of the state it is made in. -/
def CallOk (abis : List String) (s : VersionManager) : Call → Prop
  | .addVersion directory _ code => s.AddOk abis directory code
  | .removeVersion (some ver) => s.RemoveOk ver
  | .removeVersionAbis (some ver) l => s.RemoveAbisOk ver l
  | _ => True

/-- Neither the map has the code, nor what a restart makes of the settings. -/
def Gone (abis : List String) (s : VersionManager) (code : Int) : Prop :=
  s.versions[code]? = none ∧ ∀ H, (s.loadVersions H abis).versions[code]? = none

/-- After the removal of a version or of ABIs of a version their codes are gone. -/
def Removed (abis : List String) (s t : VersionManager) : Call → Prop
  | .removeVersion (some ver) => s.Live ver → ∀ c ∈ (s.info ver).values, t.Gone abis c
  | .removeVersionAbis (some ver) l =>
    s.Live ver → ∀ c ∈ codesOf (s.info ver) l, t.Gone abis c
  | _ => True

theorem Inv.gone (h : s.Inv) {c : Int} (hc : s.versions[c]? = none) : s.Gone abis c :=
  ⟨hc, fun H => ((h.loadVersions H abis).2 c).1.mp hc⟩

theorem Inv.step (h : s.Inv) (hok : s.CallOk abis call) :
    ∃ t, s.step H abis call = some t ∧ t.Inv ∧ s.Removed abis t call := by
  cases call with
  | addVersion d n code => exact ⟨_, rfl, h.toIndex.addVersion hok, trivial⟩
  | removeVersion version =>
    cases version with
    | none => exact ⟨s, rfl, h, trivial⟩
    | some ver =>
      obtain ⟨t, ht, hinv, hgone⟩ := h.removeVersion hok
      exact ⟨t, ht, hinv, fun hv c hc => hinv.gone (hgone hv c hc)⟩
  | removeVersionAbis version l =>
    cases version with
    | none => exact ⟨s, rfl, h, trivial⟩
    | some ver =>
      obtain ⟨t, ht, hinv, hgone⟩ := h.removeVersionAbis hok
      exact ⟨t, ht, hinv, fun hv c hc => hinv.gone (hgone hv c hc)⟩
  | files disk => exact ⟨_, rfl, { toIndex := { h.toIndex with }, holds := { h.holds with } }, trivial⟩
  | restart => exact ⟨_, rfl, (h.loadVersions H abis).1, trivial⟩

theorem inv_initial (disk : String → String → Bool) : (initial disk).Inv :=
  ⟨index_initial disk, holds_initial disk⟩

/-- Calls that meet their conditions keep the index of the versions consistent, and what they remove
does not come back. -/
theorem consistent_run (H : QHashLayout) (abis : List String) (disk : String → String → Bool)
    (calls : List Call) (h : Runs.Meets (step H abis) (CallOk abis) (initial disk) calls) :
    ∃ s, Runs.run (step H abis) (initial disk) calls = some s ∧ s.Consistent abis ∧
      ∀ call, s.CallOk abis call → ∃ t, s.step H abis call = some t ∧ s.Removed abis t call := by
  obtain ⟨s, hs, hinv⟩ := Runs.run_inv (I := Inv)
    (fun s call hs hok => (hs.step hok).imp fun t ht => ⟨ht.1, ht.2.1⟩) (inv_initial disk) h
  refine ⟨s, hs, hinv.consistent abis, fun call hok => ?_⟩
  obtain ⟨t, ht, _, hremoved⟩ := hinv.step hok
  exact ⟨t, ht, hremoved⟩

/-- A hash with its entries in the order of their insertion, the last one first. -/
def QHashLayout.newestFirst : QHashLayout := ⟨id, fun codes => .refl codes⟩

def x86Abis : List String := ["x86_64", "x86", "arm64-v8a", "armeabi-v7a"]

theorem consistent_run_removeVersion :
    ∃ s, Runs.run (step QHashLayout.newestFirst x86Abis) (initial fun _ abi => abi = "x86_64")
        [.addVersion "1.20.0" "1.20.0" 972000001, .restart, .removeVersion (some 0)] = some s ∧
      s.Consistent x86Abis ∧ ∀ call, s.CallOk x86Abis call →
        ∃ t, s.step QHashLayout.newestFirst x86Abis call = some t ∧ s.Removed x86Abis t call := by
  refine consistent_run _ _ _ _ (.cons ?_ rfl (.cons trivial rfl ⟨⟨?_, ?_⟩, fun _ _ => trivial⟩))
  · refine ⟨"x86_64", by decide, rfl, ?_⟩
    rintro w ⟨c, hc⟩
    simp [initial] at hc
  · exact fun _ => List.nodup_singleton 972000001
  · exact fun hgone => absurd ⟨972000001, by decide +kernel⟩ hgone

/-- A version with codes for two ABIs, of which one is removed. -/
def removeOneAbi : List Call :=
  [.files fun d abi => d = "1.20.0" && abi = "x86_64",
    .addVersion "1.20.0" "1.20.0" 972000001,
    .files fun d abi => d = "1.20.0" && (abi = "x86_64" || abi = "arm64-v8a"),
    .addVersion "1.20.0" "1.20.0" 972000002,
    .removeVersionAbis (some 0) ["arm64-v8a"]]

/-- The ABI that was removed is among the codes of its version still, and a restart brings it
back. -/
theorem not_consistent_removeOneAbi :
    ∃ s, Runs.run (step QHashLayout.newestFirst x86Abis) (initial fun _ _ => false) removeOneAbi =
        some s ∧ ¬s.Consistent x86Abis ∧ ¬s.Gone x86Abis 972000002 := by
  have hrun : ((Runs.run (step QHashLayout.newestFirst x86Abis) (initial fun _ _ => false)
      removeOneAbi).map fun s => (s.versions.toList, (s.info 0).values,
        (s.loadVersions QHashLayout.newestFirst x86Abis).versions.toList)) =
      some ([(972000001, 0)], [972000002, 972000001], [(972000001, 0), (972000002, 0)]) := by
    decide +kernel
  obtain ⟨s, hs, hfacts⟩ := Option.map_eq_some_iff.mp hrun
  simp only [Prod.mk.injEq] at hfacts
  obtain ⟨hversions, hvalues, hload⟩ := hfacts
  have hlive : s.versions[(972000001 : Int)]? = some 0 := by
    rw [← Std.TreeMap.mem_toList_iff_getElem?_eq_some, hversions]
    exact .head _
  refine ⟨s, hs, fun h => ?_, fun h => ?_⟩
  · have hcode := (h.codes 0 ⟨_, hlive⟩ 972000002).mpr (by rw [hvalues]; exact .head _)
    rw [← Std.TreeMap.mem_toList_iff_getElem?_eq_some, hversions] at hcode
    simp at hcode
  · have hback : (s.loadVersions QHashLayout.newestFirst x86Abis).versions[(972000002 : Int)]? =
        some 0 := by
      rw [← Std.TreeMap.mem_toList_iff_getElem?_eq_some, hload]
      exact .tail _ (.head _)
    exact absurd ((h.2 _).symm.trans hback) (by simp)

end VersionManager

end McpeLauncher.Versions
