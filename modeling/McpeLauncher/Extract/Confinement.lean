import McpeLauncher.Extract.OutputPaths

/-!
# Imports are confined

The archives that `ZipExtractionTask` and `ApkExtractionTask` extract into the temporary directory
and nowhere else, and the version names whose directory is inside that of the versions.
-/

namespace McpeLauncher.Extract
open LexicalPath ZipExtractor

/-! ## The claim -/

/-- Each path that the import creates or writes is strictly inside the temporary directory. -/
def ZipExtractionTask.Confines (before : Bool) (sources : List Archive) : Prop :=
  ∀ os dir, Sane os dir → Confined dir (run os dir before sources []).2

/-- The same, and the directory that the result is merged into is strictly inside that of the
versions, which has the temporary directory in it. -/
def ApkExtractionTask.Confines (t : ApkExtractionTask) : Prop :=
  ∀ os versions dir, (∃ c, dir.names = versions.names ++ [c]) → Sane os dir →
    Confined dir (t.run os versions dir).2 ∧
    ∀ target, (t.run os versions dir).1 = .ok target → versions.Inside target

/-! ## The condition -/

def ZipExtractionTask.Safe (before : Bool) : List Archive → Prop
  | [] => True
  | a :: sources => a.Safe (filter before) (Safe before sources)

namespace ApkExtractionTask

/-- What the sources extract, if nothing fails. -/
def shipped (sources : List ApkSource) : List (Entry × Path) :=
  sources.flatMap fun s =>
    match s.manifest with
    | .error _ => []
    | .ok capkInfo =>
      selected (MinecraftExtractUtils.filterMinecraftFile capkInfo.split.isEmpty) s.entries

/-- The game library of a compatible ABI is on the way to an extracted file. -/
def Ships (t : ApkExtractionTask) : Prop :=
  ∃ abi ∈ t.abis, abi.2 = true ∧
    ∃ f ∈ shipped t.sources, ∃ q, q <+: f.2 ∧ relative q = relative (gameLibrary abi.1)

/-- The name is that of something below the directory it is looked up in. -/
def NameOk (name : List Char) : Prop :=
  name.head? ≠ some '/' ∧ name.head? ≠ some ':' ∧
  (relative (components name)).ups = 0 ∧ (relative (components name)).rest ≠ []

def SafeSources (allowedPackages : List (List Char)) (next : ApkInfo → Prop) :
    List ApkSource → ApkInfo → Prop
  | [], apkInfo => next apkInfo
  | s :: sources, apkInfo => ∀ capkInfo apkInfo', s.manifest = .ok capkInfo →
    checkInfo allowedPackages apkInfo capkInfo = .ok apkInfo' →
    s.toArchive.Safe (MinecraftExtractUtils.filterMinecraftFile capkInfo.split.isEmpty)
      (SafeSources allowedPackages next sources apkInfo')

def Safe (t : ApkExtractionTask) : Prop :=
  SafeSources t.allowedPackages
    (fun apkInfo => t.allowIncompatible = true ∨ t.Ships →
      t.nameFor apkInfo ≠ [] → NameOk (t.nameFor apkInfo)) t.sources ⟨0, [], [], []⟩

end ApkExtractionTask

/-! ## ZIP files -/

namespace ZipExtractionTask

theorem run_confined {os : Os} {dir : Directory} (hos : Sane os dir) {before : Bool}
    {sources : List Archive} (hs : Safe before sources) {h : List Op} (hh : Confined dir h) :
    Confined dir (run os dir before sources h).2 := by
  induction sources generalizing h with
  | nil => exact hh
  | cons a sources ih =>
    obtain ⟨hconf, hnext⟩ := Archive.extractTo_confined hos hs hh
    rw [run]
    split
    · rename_i heq
      rw [heq] at hconf
      exact hconf
    · rename_i heq
      rw [heq] at hconf hnext
      exact ih (hnext _ rfl) hconf

theorem run_subset (os : Os) (dir : Directory) (before : Bool) (sources : List Archive) {h : List Op} :
    h ⊆ (run os dir before sources h).2 := by
  induction sources generalizing h with
  | nil => exact List.Subset.refl h
  | cons a sources ih =>
    have ha := a.extractTo_subset os dir (filter before) h
    rw [run]
    split
    · rename_i heq
      rw [heq] at ha
      exact ha
    · rename_i heq
      rw [heq] at ha
      exact List.Subset.trans ha ih

theorem run_unsafe {dir : Directory} {before : Bool} {sources : List Archive}
    (hf : ∀ a ∈ sources, ∀ f ∈ selected (filter before) a.entries, dir.Fresh f.2)
    (hs : ¬Safe before sources) {h : List Op} :
    ¬Confined dir (run (permissive dir) dir before sources h).2 := by
  induction sources generalizing h with
  | nil => exact absurd trivial hs
  | cons a sources ih =>
    have ha := Archive.extractTo_unsafe (h := h) (hf a (.head sources)) hs
    rw [run]
    cases hr : a.extractTo (permissive dir) dir (filter before) h with
    | mk r h' =>
      rw [hr] at ha
      cases r with
      | error e =>
        rcases ha with ha | ⟨⟨_, ho⟩, -⟩
        · exact ha
        · cases ho
      | ok outputs =>
        rcases ha with ha | ⟨-, hn⟩
        · exact fun hconf => ha (hconf.of_subset (run_subset _ dir before sources))
        · exact ih (fun b hb => hf b (.tail a hb)) hn

theorem confines_iff (before : Bool) (sources : List Archive) :
    Confines before sources ↔ Safe before sources := by
  constructor
  · intro h
    by_contra hs
    obtain ⟨-, dir, -, -, hfresh⟩ := Directory.exists_fresh_child
      (sources.flatMap fun a => (selected (filter before) a.entries).flatMap Prod.snd)
    refine run_unsafe ?_ hs (h (permissive dir) dir (permissive_sane dir))
    intro a ha f hf c hc
    exact hfresh c (List.mem_flatMap.mpr ⟨a, ha, List.mem_flatMap.mpr ⟨f, hf, hc⟩⟩)
  · intro hs os dir hos
    exact run_confined hos hs fun op hop => absurd hop List.not_mem_nil

end ZipExtractionTask

/-! ## APK files -/

theorem SafeFiles.mono {files : List (Entry × Path)} {next next' : Prop} (hs : SafeFiles files next)
    (himp : next → next') : SafeFiles files next' := by
  induction files with
  | nil => exact himp hs
  | cons f files ih =>
    intro hstat hopened
    obtain ⟨hq, hnext⟩ := hs hstat hopened
    exact ⟨hq, fun hname => ih (hnext hname)⟩

/-- After safe files, none of them has escaped. -/
theorem SafeFiles.not_escapes {files : List (Entry × Path)} {next : Prop} (hs : SafeFiles files next) :
    SafeFiles files (next ∧ ∀ f ∈ files, ¬Escapes f.2) := by
  induction files with
  | nil => exact ⟨hs, fun f hf => absurd hf List.not_mem_nil⟩
  | cons f files ih =>
    intro hstat hopened
    obtain ⟨hq, hnext⟩ := hs hstat hopened
    refine ⟨hq, fun hname => (ih (hnext hname)).mono fun h => ⟨h.1, fun g hg => ?_⟩⟩
    rcases List.mem_cons.mp hg with rfl | hg
    · exact hq
    · exact h.2 g hg

namespace ApkExtractionTask
open MinecraftExtractUtils

section Sources

variable {os : Os} {dir : Directory} {allowedPackages : List (List Char)} {next : ApkInfo → Prop}
  {sources : List ApkSource} {apkInfo : ApkInfo} {h : List Op}

/-- The source after which the loop ends, or the state after the first one. -/
theorem extractSources_cases (s : ApkSource) (os : Os) (dir : Directory)
    (allowedPackages : List (List Char)) (sources : List ApkSource) (apkInfo : ApkInfo) (h : List Op) :
    (∃ e, extractSources os dir allowedPackages (s :: sources) apkInfo h = (.error e, h) ∧
      (s.openError ≠ none ∨ ∀ capkInfo apkInfo', s.manifest = .ok capkInfo →
        checkInfo allowedPackages apkInfo capkInfo ≠ .ok apkInfo')) ∨
    ∃ capkInfo apkInfo', s.manifest = .ok capkInfo ∧
      checkInfo allowedPackages apkInfo capkInfo = .ok apkInfo' ∧
      ((∃ e e' h', s.extractTo os dir (filterMinecraftFile capkInfo.split.isEmpty) h = (.error e, h') ∧
          extractSources os dir allowedPackages (s :: sources) apkInfo h = (.error e', h')) ∨
        ∃ outputs h', s.extractTo os dir (filterMinecraftFile capkInfo.split.isEmpty) h =
            (.ok outputs, h') ∧
          extractSources os dir allowedPackages (s :: sources) apkInfo h =
            extractSources os dir allowedPackages sources apkInfo' h') := by
  rw [extractSources]
  split
  · rename_i herror
    refine .inl ⟨_, rfl, .inl ?_⟩
    rw [herror]
    exact Option.some_ne_none _
  · rename_i what herror hmanifest
    refine .inl ⟨_, rfl, .inr fun capkInfo apkInfo' hm => ?_⟩
    rw [hmanifest] at hm
    cases hm
  · rename_i capkInfo herror hmanifest
    split
    · rename_i e hcheck
      refine .inl ⟨_, rfl, .inr fun capkInfo' apkInfo' hm hc => ?_⟩
      rw [hmanifest] at hm
      cases hm
      rw [hcheck] at hc
      cases hc
    · rename_i apkInfo' hcheck
      refine .inr ⟨capkInfo, apkInfo', hmanifest, hcheck, ?_⟩
      simp only
      split
      · rename_i e h' hr
        exact .inl ⟨e, _, h', hr, rfl⟩
      · rename_i outputs h' hr
        exact .inr ⟨outputs, h', hr, rfl⟩

theorem shipped_cons {s : ApkSource} (sources : List ApkSource) {capkInfo : ApkInfo}
    (hm : s.manifest = .ok capkInfo) :
    shipped (s :: sources) =
      selected (filterMinecraftFile capkInfo.split.isEmpty) s.entries ++ shipped sources := by
  rw [shipped, List.flatMap_cons, hm]
  rfl

theorem extractSources_confined (hos : Sane os dir)
    (hs : SafeSources allowedPackages next sources apkInfo) (hh : Confined dir h) :
    Confined dir (extractSources os dir allowedPackages sources apkInfo h).2 ∧
    ∀ r, (extractSources os dir allowedPackages sources apkInfo h).1 = .ok r → next r := by
  induction sources generalizing apkInfo h with
  | nil =>
    refine ⟨hh, fun r hr => ?_⟩
    cases hr
    exact hs
  | cons s sources ih =>
    rcases extractSources_cases s os dir allowedPackages sources apkInfo h with
      ⟨e, hr, -⟩ | ⟨capkInfo, apkInfo', hm, hc, ⟨e, e', h', hx, hr⟩ | ⟨outputs, h', hx, hr⟩⟩
    · rw [hr]
      exact ⟨hh, fun _ ho => nomatch ho⟩
    · have hconf := (Archive.extractTo_confined hos (hs capkInfo apkInfo' hm hc) hh).1
      rw [hx] at hconf
      rw [hr]
      exact ⟨hconf, fun _ ho => nomatch ho⟩
    · obtain ⟨hconf, hnext⟩ := Archive.extractTo_confined hos (hs capkInfo apkInfo' hm hc) hh
      rw [hx] at hconf hnext
      rw [hr]
      exact ih (hnext outputs rfl) hconf

theorem extractSources_opened {r : ApkInfo} {h' : List Op}
    (hr : extractSources os dir allowedPackages sources apkInfo h = (.ok r, h')) (p : Path) :
    Op.fopen p true ∈ h' ↔ Op.fopen p true ∈ h ∨ ∃ f ∈ shipped sources, dir.path ++ f.2 = p := by
  induction sources generalizing apkInfo h with
  | nil =>
    cases hr
    simp [shipped]
  | cons s sources ih =>
    rcases extractSources_cases s os dir allowedPackages sources apkInfo h with
      ⟨e, hr', -⟩ | ⟨capkInfo, apkInfo', hm, -, ⟨e, e', h'', -, hr'⟩ | ⟨outputs, h'', hx, hr'⟩⟩
    · rw [hr'] at hr
      cases hr
    · rw [hr'] at hr
      cases hr
    · rw [hr'] at hr
      simp only [ih hr, Archive.extractTo_opened hx, shipped_cons sources hm, List.mem_append,
        or_and_right, exists_or, or_assoc]

theorem extractSources_subset (os : Os) (dir : Directory) (allowedPackages : List (List Char))
    (sources : List ApkSource) (apkInfo : ApkInfo) (h : List Op) :
    h ⊆ (extractSources os dir allowedPackages sources apkInfo h).2 := by
  induction sources generalizing apkInfo h with
  | nil => exact List.Subset.refl h
  | cons s sources ih =>
    rcases extractSources_cases s os dir allowedPackages sources apkInfo h with
      ⟨e, hr, -⟩ | ⟨capkInfo, apkInfo', -, -, ⟨e, e', h', hx, hr⟩ | ⟨outputs, h', hx, hr⟩⟩
    · rw [hr]
      exact List.Subset.refl h
    · have hsub := s.extractTo_subset os dir (filterMinecraftFile capkInfo.split.isEmpty) h
      rw [hx] at hsub
      rw [hr]
      exact hsub
    · have hsub := s.extractTo_subset os dir (filterMinecraftFile capkInfo.split.isEmpty) h
      rw [hx] at hsub
      rw [hr]
      exact List.Subset.trans hsub (ih apkInfo' h')

theorem extractSources_unsafe (hf : ∀ f ∈ shipped sources, dir.Fresh f.2)
    (hs : ¬SafeSources allowedPackages next sources apkInfo) :
    ¬Confined dir (extractSources (permissive dir) dir allowedPackages sources apkInfo h).2 ∨
    ∃ r, (extractSources (permissive dir) dir allowedPackages sources apkInfo h).1 = .ok r ∧
      ¬next r := by
  induction sources generalizing apkInfo h with
  | nil => exact .inr ⟨apkInfo, rfl, hs⟩
  | cons s sources ih =>
    simp only [SafeSources, not_forall] at hs
    obtain ⟨capkInfo, apkInfo', hm, hc, hs⟩ := hs
    have hshipped := shipped_cons sources hm
    have ha := Archive.extractTo_unsafe (h := h)
      (fun f hmem => hf f (hshipped ▸ List.mem_append_left _ hmem)) hs
    rcases extractSources_cases s (permissive dir) dir allowedPackages sources apkInfo h with
      ⟨e, hr, hno⟩ | ⟨capkInfo₁, apkInfo₁, hm₁, hc₁, hcases⟩
    · rcases hno with hno | hno
      · simp only [Archive.Safe, Classical.not_imp] at hs
        exact absurd hs.1 hno
      · exact absurd hc (hno capkInfo apkInfo' hm)
    · cases hm.symm.trans hm₁
      cases hc.symm.trans hc₁
      rcases hcases with ⟨e, e', h', hx, hr⟩ | ⟨outputs, h', hx, hr⟩
      · rw [hx] at ha
        rw [hr]
        rcases ha with ha | ⟨⟨_, ho⟩, -⟩
        · exact .inl ha
        · cases ho
      · rw [hx] at ha
        rw [hr]
        rcases ha with ha | ⟨-, hn⟩
        · exact .inl fun hconf => ha (hconf.of_subset (extractSources_subset ..))
        · exact ih (fun f hmem => hf f (hshipped ▸ List.mem_append_right _ hmem)) hn

theorem SafeSources.not_escapes (hs : SafeSources allowedPackages next sources apkInfo) :
    SafeSources allowedPackages (fun r => next r ∧ ∀ f ∈ shipped sources, ¬Escapes f.2) sources
      apkInfo := by
  -- The conclusion is about all sources, so the induction is on a part of them.
  suffices hpart : ∀ part : List (Entry × Path), (∀ f ∈ part, ¬Escapes f.2) →
      SafeSources allowedPackages (fun r => next r ∧ ∀ f ∈ part ++ shipped sources, ¬Escapes f.2)
        sources apkInfo from hpart [] fun f hf => absurd hf List.not_mem_nil
  induction sources generalizing apkInfo with
  | nil =>
    intro part hpart
    exact ⟨hs, fun f hf => hpart f (by simpa [shipped] using hf)⟩
  | cons s sources ih =>
    intro part hpart capkInfo apkInfo' hm hc herror hlisted
    apply (hs capkInfo apkInfo' hm hc herror hlisted).not_escapes.mono
    rintro ⟨hrest, hfiles⟩
    rw [shipped_cons sources hm, ← List.append_assoc]
    apply ih hrest
    intro f hf
    rcases List.mem_append.mp hf with hf | hf
    · exact hpart f hf
    · exact hfiles f hf

end Sources

/-! ## The game library -/

theorem gameLibrary_relative (abi : List Char) :
    (relative (gameLibrary abi)).ups = 0 ∧ (relative (gameLibrary abi)).rest ≠ [] := by
  have hlib : IsName ['l', 'i', 'b'] := by decide
  have hso : IsName "libminecraftpe.so".toList := by decide
  have hrel : relative (gameLibrary abi) =
      ((Relative.push ⟨0, []⟩ ['l', 'i', 'b']).push abi).push "libminecraftpe.so".toList := rfl
  rw [hrel, hlib.relative_push, hso.relative_push]
  refine ⟨?_, List.append_ne_nil_of_right_ne_nil _ (List.cons_ne_nil _ _)⟩
  unfold Relative.push
  split_ifs with hdot hup hnil
  · rfl
  · exact absurd hnil (List.cons_ne_nil _ _)
  · rfl
  · rfl

variable {t : ApkExtractionTask} {dir : Directory} {h : List Op}

theorem fileExists_iff
    (ho : ∀ p, Op.fopen p true ∈ h ↔ ∃ f ∈ shipped t.sources, dir.path ++ f.2 = p) (p : Path) :
    fileExists h p = true ↔
      ∃ f ∈ shipped t.sources, ∃ q, q <+: dir.path ++ f.2 ∧ resolve q = resolve p := by
  rw [fileExists, List.any_eq_true]
  constructor
  · rintro ⟨op, hop, hany⟩
    split at hany
    · rename_i path
      obtain ⟨f, hf, rfl⟩ := (ho path).mp hop
      obtain ⟨q, hq, hres⟩ := List.any_eq_true.mp hany
      exact ⟨f, hf, q, List.mem_inits _ _ |>.mp hq, of_decide_eq_true hres⟩
    · cases hany
  · rintro ⟨f, hf, q, hq, hres⟩
    refine ⟨.fopen (dir.path ++ f.2) true, (ho _).mpr ⟨f, hf, rfl⟩, ?_⟩
    exact List.any_eq_true.mpr ⟨q, List.mem_inits _ _ |>.mpr hq, decide_eq_true hres⟩

theorem supported_of_ships
    (ho : ∀ p, Op.fopen p true ∈ h ↔ ∃ f ∈ shipped t.sources, dir.path ++ f.2 = p) (hs : t.Ships) :
    t.supported dir h = true := by
  obtain ⟨abi, habi, hcompatible, f, hf, q, hq, hrel⟩ := hs
  rw [supported, List.any_eq_true]
  refine ⟨abi, habi, ?_⟩
  rw [hcompatible, Bool.true_and, fileExists_iff ho]
  refine ⟨f, hf, dir.path ++ q, (List.prefix_append_right_inj _).mpr hq, ?_⟩
  rw [Directory.resolve_path_append, Directory.resolve_path_append, hrel]

theorem ships_of_supported
    (ho : ∀ p, Op.fopen p true ∈ h ↔ ∃ f ∈ shipped t.sources, dir.path ++ f.2 = p)
    (hesc : ∀ f ∈ shipped t.sources, ¬Escapes f.2) (hs : t.supported dir h = true) : t.Ships := by
  rw [supported, List.any_eq_true] at hs
  obtain ⟨abi, habi, hs⟩ := hs
  rw [Bool.and_eq_true, fileExists_iff ho] at hs
  obtain ⟨hcompatible, f, hf, p, hp, hres⟩ := hs
  obtain ⟨hups, hrest⟩ := gameLibrary_relative abi.1
  have hinside : dir.Inside (dir.path ++ gameLibrary abi.1) := Directory.inside_of_rest hups hrest
  have habove : ¬dir.Above p := by
    intro ha
    rw [Directory.Above, hres] at ha
    exact Directory.not_inside_of_above ha hinside
  have hlen : dir.path.length ≤ p.length := by
    by_contra hlt
    rw [List.prefix_iff_eq_take.mp hp, List.take_append_of_le_length (by omega)] at habove
    exact habove (dir.above_take _)
  rw [List.prefix_iff_eq_take.mp hp, List.take_append, List.take_of_length_le hlen] at hres habove
  refine ⟨abi, habi, hcompatible, f, hf, f.2.take (p.length - dir.path.length),
    List.take_prefix _ _, ?_⟩
  have hrest' : (relative (f.2.take (p.length - dir.path.length))).rest ≠ [] :=
    fun hnil => habove (Directory.above_of_rest hnil)
  have hups' : (relative (f.2.take (p.length - dir.path.length))).ups = 0 := by
    by_contra hne
    exact hesc f hf ⟨_, List.take_prefix _ _, hne, hrest'⟩
  rw [Directory.resolve_path_append, Directory.resolve_path_append, hups, hups'] at hres
  generalize relative (f.2.take (p.length - dir.path.length)) = r at hups' hres ⊢
  generalize relative (gameLibrary abi.1) = r' at hups hres ⊢
  obtain ⟨ups, rest⟩ := r
  obtain ⟨ups', rest'⟩ := r'
  rw [List.append_cancel_left_eq] at hres
  simp only at hups hups' hres
  rw [hups, hups', hres]

/-! ## The directory of the version -/

theorem inside_getDirectoryFor (versions : Directory) {name : List Char} (h : NameOk name) :
    versions.Inside (getDirectoryFor versions name) := by
  obtain ⟨hslash, hcolon, hups, hrest⟩ := h
  rw [getDirectoryFor]
  split
  · exact absurd ‹_› hslash
  · exact absurd ‹_› hcolon
  · exact Directory.inside_of_rest hups hrest

theorem not_inside_getDirectoryFor {versions : Directory} {name : List Char} (hname : name ≠ [])
    (hf : versions.Fresh (components name)) (h : ¬NameOk name) :
    ¬versions.Inside (getDirectoryFor versions name) := by
  rw [getDirectoryFor]
  split
  · exact hf.not_inside_self
  · rintro ⟨hhead, -⟩
    exact hname (Option.some.inj hhead)
  · rename_i hslash hcolon
    by_cases hups : (relative (components name)).ups = 0
    · have hrest : (relative (components name)).rest = [] := by
        by_contra hrest
        exact h ⟨hslash, hcolon, hups, hrest⟩
      exact Directory.not_inside_of_above (Directory.above_of_rest hrest)
    · exact hf.not_inside hups

theorem checkInfo_versionName {allowedPackages : List (List Char)} {apkInfo capkInfo r : ApkInfo}
    (hr : checkInfo allowedPackages apkInfo capkInfo = .ok r) :
    r.versionName = apkInfo.versionName ∨ r.versionName = capkInfo.versionName := by
  unfold checkInfo at hr
  split_ifs at hr
  · cases hr
    exact .inr rfl
  · cases hr
    exact .inr rfl
  · cases hr
    exact .inl rfl

/-- The names of the manifests. -/
def manifestNames (sources : List ApkSource) : List (List Char) :=
  sources.flatMap fun s =>
    match s.manifest with
    | .error _ => []
    | .ok capkInfo => [capkInfo.versionName]

theorem extractSources_versionName {os : Os} {allowedPackages : List (List Char)}
    {sources : List ApkSource} {apkInfo r : ApkInfo} {h' : List Op}
    (hr : extractSources os dir allowedPackages sources apkInfo h = (.ok r, h')) :
    r.versionName = apkInfo.versionName ∨ r.versionName ∈ manifestNames sources := by
  induction sources generalizing apkInfo h with
  | nil =>
    cases hr
    exact .inl rfl
  | cons s sources ih =>
    rcases extractSources_cases s os dir allowedPackages sources apkInfo h with
      ⟨e, hr', -⟩ | ⟨capkInfo, apkInfo', hm, hc, ⟨e, e', h'', -, hr'⟩ | ⟨outputs, h'', -, hr'⟩⟩
    · rw [hr'] at hr
      cases hr
    · rw [hr'] at hr
      cases hr
    · rw [hr'] at hr
      rw [manifestNames, List.flatMap_cons, hm, List.mem_append]
      rcases ih hr with hname | hname
      · rw [hname]
        rcases checkInfo_versionName hc with hc | hc
        · exact .inl hc
        · exact .inr (.inl (List.mem_singleton.mpr hc))
      · exact .inr (.inr hname)

theorem run_confined (hs : t.Safe) {os : Os} (hos : Sane os dir) (versions : Directory) :
    Confined dir (t.run os versions dir).2 ∧
    ∀ target, (t.run os versions dir).1 = .ok target → versions.Inside target := by
  obtain ⟨hconf, hnext⟩ := extractSources_confined (h := []) hos hs.not_escapes
    fun op hop => absurd hop List.not_mem_nil
  rw [run]
  cases hr : extractSources os dir t.allowedPackages t.sources ⟨0, [], [], []⟩ [] with
  | mk r h =>
    rw [hr] at hconf hnext
    cases r with
    | error e => exact ⟨hconf, fun _ ho => nomatch ho⟩
    | ok apkInfo =>
      obtain ⟨hname, hesc⟩ := hnext apkInfo rfl
      simp only
      split
      · exact ⟨hconf, fun _ ho => nomatch ho⟩
      rename_i hsupported
      split
      · exact ⟨hconf, fun _ ho => nomatch ho⟩
      rename_i hne
      refine ⟨hconf, fun target htarget => ?_⟩
      cases htarget
      apply inside_getDirectoryFor versions
      apply hname _ hne
      cases hallow : t.allowIncompatible with
      | true => exact .inl rfl
      | false =>
        have hsup : t.supported dir h = true := by simpa [hallow] using hsupported
        refine .inr (ships_of_supported (fun p => ?_) hesc hsup)
        rw [extractSources_opened hr]
        exact or_iff_right List.not_mem_nil

theorem run_unsafe (dir versions : Directory) (hf : ∀ f ∈ shipped t.sources, dir.Fresh f.2)
    (hset : versions.Fresh (components t.versionName))
    (hmanifest : ∀ name ∈ manifestNames t.sources, versions.Fresh (components name))
    (hs : ¬t.Safe) :
    ¬Confined dir (t.run (permissive dir) versions dir).2 ∨
    ∃ target, (t.run (permissive dir) versions dir).1 = .ok target ∧ ¬versions.Inside target := by
  have hsources := extractSources_unsafe (h := []) hf hs
  rw [run]
  cases hr : extractSources (permissive dir) dir t.allowedPackages t.sources ⟨0, [], [], []⟩ [] with
  | mk r h =>
    rw [hr] at hsources
    rcases hsources with hconf | ⟨apkInfo, rfl, hn⟩
    · refine .inl ?_
      cases r with
      | error e => exact hconf
      | ok apkInfo =>
        simp only
        split
        · exact hconf
        · split
          · exact hconf
          · exact hconf
    · simp only [Classical.not_imp] at hn
      obtain ⟨hsupported, hne, hname⟩ := hn
      have hno : ¬(!t.allowIncompatible && !t.supported dir h) = true := by
        rcases hsupported with hallow | hships
        · simp [hallow]
        · have hsup : t.supported dir h = true := by
            refine supported_of_ships (fun p => ?_) hships
            rw [extractSources_opened hr]
            exact or_iff_right List.not_mem_nil
          simp [hsup]
      refine .inr ⟨getDirectoryFor versions (t.nameFor apkInfo), ?_, ?_⟩
      · simp only [if_neg hno, if_neg hne]
      · apply not_inside_getDirectoryFor hne _ hname
        unfold nameFor at hne ⊢
        split
        · exact hset
        · rename_i hunset
          rw [if_neg hunset] at hne
          rcases extractSources_versionName hr with hempty | hmem
          · exact absurd hempty hne
          · exact hmanifest _ hmem

theorem confines_iff (t : ApkExtractionTask) : t.Confines ↔ t.Safe := by
  constructor
  · intro h
    by_contra hs
    obtain ⟨versions, dir, hdir, hversions, hfresh⟩ := Directory.exists_fresh_child
      ((shipped t.sources).flatMap Prod.snd ++ components t.versionName ++
        (manifestNames t.sources).flatMap components)
    have hf : ∀ f ∈ shipped t.sources, dir.Fresh f.2 := by
      intro f hf c hc
      apply hfresh c
      exact List.mem_append_left _ (List.mem_append_left _ (List.mem_flatMap.mpr ⟨f, hf, hc⟩))
    have hset : versions.Fresh (components t.versionName) := by
      intro c hc
      apply hversions c
      exact List.mem_append_left _ (List.mem_append_right _ hc)
    have hmanifest : ∀ name ∈ manifestNames t.sources, versions.Fresh (components name) := by
      intro name hname c hc
      apply hversions c
      exact List.mem_append_right _ (List.mem_flatMap.mpr ⟨name, hname, hc⟩)
    have hunsafe := run_unsafe dir versions hf hset hmanifest hs
    obtain ⟨hconf, hinside⟩ := h (permissive dir) versions dir hdir (permissive_sane dir)
    rcases hunsafe with hno | ⟨target, htarget, hno⟩
    · exact hno hconf
    · exact hno (hinside target htarget)
  · intro hs os versions dir _ hos
    exact run_confined hs hos versions

end ApkExtractionTask

/-- **Which imports are confined.** -/
theorem import_confines_iff (before : Bool) (sources : List Archive) (t : ApkExtractionTask) :
    (ZipExtractionTask.Confines before sources ↔ ZipExtractionTask.Safe before sources) ∧
    (t.Confines ↔ t.Safe) :=
  ⟨ZipExtractionTask.confines_iff before sources, ApkExtractionTask.confines_iff t⟩

/-- An entry that climbs out of the directory. -/
def evilEntry : Entry where
  name := ['.', '.', '/', 'e', 'v', 'i', 'l']
  data := []
  listed := true
  stat := true
  opened := true
  reads _ := 0
  writes _ := 0

/-- An APK without entries, with a version name that is the directory above. -/
def evilVersion : ApkExtractionTask where
  sources := [{ openError := none, entries := [], manifest := .ok ⟨1, ['.', '.'], ['p'], []⟩ }]
  allowedPackages := []
  allowIncompatible := true
  versionName := []
  abis := []

/-- The directory `/v`. -/
def sampleVersions : Directory := ⟨[['v']], by decide, by decide⟩

/-- The directory `/v/t`. -/
def sampleTemp : Directory := ⟨[['v'], ['t']], by decide, by decide⟩

/-- All directories exist. -/
def allExist (dir : Directory) : Os := { permissive dir with mkdir _ _ := .exists }

theorem allExist_sane (dir : Directory) : Sane (allExist dir) dir where
  mkdir _ _ _ := by exact MkdirResult.noConfusion
  fopen := (permissive_sane dir).fopen

/-- The entry is written beside the temporary directory, and the APK is merged into the directory
above that of the versions. -/
theorem not_confines_evil :
    ¬ZipExtractionTask.Confines false [⟨none, [evilEntry]⟩] ∧ ¬evilVersion.Confines := by
  constructor
  · intro h
    have hrun : (ZipExtractionTask.run (allExist sampleTemp) sampleTemp false
        [⟨none, [evilEntry]⟩] []).2 =
          [.mkdir (sampleTemp.path ++ [['.', '.']]) .exists,
            .fopen (sampleTemp.path ++ [['.', '.'], ['e', 'v', 'i', 'l']]) true] := by
      rfl
    have hconf := h (allExist sampleTemp) sampleTemp (allExist_sane sampleTemp)
    rw [hrun] at hconf
    have hin := hconf _ (List.mem_cons_of_mem _ (List.mem_singleton_self _)) rfl
    exact absurd hin.2.1 (by decide +kernel)
  · intro h
    obtain ⟨-, hin⟩ := h (allExist sampleTemp) sampleVersions sampleTemp ⟨['t'], rfl⟩
      (allExist_sane sampleTemp)
    have hin := hin (sampleVersions.path ++ [['.', '.']]) (by decide +kernel)
    exact absurd hin.2.1 (by decide +kernel)

end McpeLauncher.Extract
