import McpeLauncher.Lib.FileTree

/-!
# Merging the extracted files into the target directory

The two functions `mergeDirsRecusive`, one of the APK import and one of the ZIP import.
`QFile::rename`, `QFile::copy` and `QDir::rename` fail if the destination exists and move otherwise.
A name that begins with a dot is not listed by `QDir::entryList`.
-/

namespace McpeLauncher.Extract
open FileTree

variable {α : Type}

abbrev Tree (α : Type) := Node (List Char) α

def isHidden (name : List Char) : Bool := name.head? = some '.'

/-- `QDir(from).entryList()`, without `.` and `..`. -/
def entryList (names : Names (List Char)) : List (List Char) := names.list.filter (!isHidden ·)

/-- What is thrown; `target` is the path below the target directory that the text names. -/
inductive MergeError
  | renamingVersionsfolder
  | creatingDirectory (target : List (List Char))
  deriving DecidableEq

/-- What is at the target path after the call, and whether the extracted directory was moved as a
whole. -/
structure Merged (α : Type) where
  target : Tree α
  moved : Bool

namespace Apk

/-- The second argument is what is at the target path. -/
def mergeDirsRecusive : Tree α → Option (Tree α) → Except MergeError (Merged α)
  | source, none => .ok ⟨source, true⟩
  | _, some (.file _) => .error .renamingVersionsfolder
  | .file _, some (.dir toNames toChild) => .ok ⟨.dir toNames toChild, false⟩
  | .dir names child, some (.dir toNames toChild) =>
    let item (n : List Char) (t : Option (Tree α)) : Except MergeError (Tree α) :=
      match child n, t with
      | .dir _ _, t => (mergeDirsRecusive (child n) t).map Merged.target
      | .file c, none => .ok (.file c)
      -- The result of `QFile().rename` is not looked at.
      | .file _, some t => .ok t
    (updateEach item (entryList names) (.dir toNames toChild)).map (⟨·, false⟩)

/-- What the loop does with an entry. -/
def mergeEntry (source : Tree α) (t : Option (Tree α)) : Except MergeError (Tree α) :=
  match source, t with
  | .dir _ _, t => (mergeDirsRecusive source t).map Merged.target
  | .file c, none => .ok (.file c)
  | .file _, some t => .ok t

theorem mergeDirsRecusive_dir (names toNames : Names (List Char)) (child toChild : List Char → Tree α) :
    mergeDirsRecusive (.dir names child) (some (.dir toNames toChild)) =
      (updateEach (fun n => mergeEntry (child n)) (entryList names) (.dir toNames toChild)).map
        (⟨·, false⟩) := by
  rw [mergeDirsRecusive]
  rfl

end Apk

namespace Zip

/-- The second argument is what is at the target path. A file takes the place of whatever is there,
since `QFile::remove` and `removeRecursively` come before the move. -/
def mergeDirsRecusive : Tree α → Option (Tree α) → List (List Char) → Except MergeError (Merged α)
  | .file c, _, _ => .ok ⟨.file c, false⟩
  | .dir names child, none, _ => .ok ⟨.dir names child, true⟩
  -- Both renames fail, and so does `mkpath`.
  | .dir _ _, some (.file _), target => .error (.creatingDirectory target)
  | .dir names child, some (.dir toNames toChild), target =>
    (updateEach (fun n t => (mergeDirsRecusive (child n) t (target ++ [n])).map Merged.target)
      (entryList names) (.dir toNames toChild)).map (⟨·, false⟩)

end Zip

/-! ## The claim -/

/-- If the merge of the APK import returns, it is an overlay. -/
def Apk.Merges (source : Tree α) (target : Option (Tree α)) : Prop :=
  ∀ r, mergeDirsRecusive source target = .ok r → Overlay (some source) target (some r.target)

/-- If the merge of the ZIP import returns, it is an overlay. -/
def Zip.Merges (source : Tree α) (target : Option (Tree α)) : Prop :=
  ∀ r, mergeDirsRecusive source target [] = .ok r → Overlay (some source) target (some r.target)

/-- An extracted entry meets what is at its path in the target, if the directories above it are in
both and no name on the way is hidden. -/
inductive Met : Tree α → Option (Tree α) → Tree α → Option (Tree α) → Prop
  | top : Met s t s t
  | entry {names toNames : Names (List Char)} {child toChild : List Char → Tree α} {n : List Char}
      (hn : n ∈ names.list) (hv : isHidden n = false)
      (h : Met (child n) ((Node.dir toNames toChild).entry n) s t) :
      Met (.dir names child) (some (.dir toNames toChild)) s t

/-- An extracted directory meets a file. -/
def Clashes (source : Tree α) (target : Option (Tree α)) : Prop :=
  ∃ names child c, Met source target (.dir names child) (some (.file c))

/-- The hidden entries of a directory that is in both hold only files that the target has already,
and where an extracted file meets something, `F` holds of them. -/
structure Clean (F : α → Tree α → Prop) (source : Tree α) (target : Option (Tree α)) : Prop where
  hidden : ∀ names child toNames toChild,
    Met source target (.dir names child) (some (.dir toNames toChild)) →
    ∀ n ∈ names.list, isHidden n = true →
      Within (some (child n)) ((Node.dir toNames toChild).entry n)
  files : ∀ c t, Met source target (.file c) (some t) → F c t

/-- The file that is there is the extracted one. -/
def SameFile (c : α) (t : Tree α) : Prop := t = .file c

/-- What is there is a file, or a directory without files. -/
def NoFilesBelow (_ : α) (t : Tree α) : Prop := ∀ n path, t.fileAt (n :: path) = none

/-! ## Where entries meet -/

section Met

variable {F : α → Tree α → Prop} {names toNames : Names (List Char)} {child toChild : List Char → Tree α}

theorem met_file {c : α} {u : Option (Tree α)} {s : Tree α} {t : Option (Tree α)}
    (h : Met (.file c) u s t) : s = .file c ∧ t = u := by
  cases h
  exact ⟨rfl, rfl⟩

theorem met_none {source s : Tree α} {t : Option (Tree α)} (h : Met source none s t) :
    s = source ∧ t = none := by
  cases h
  exact ⟨rfl, rfl⟩

theorem not_clashes_file (c : α) (u : Option (Tree α)) : ¬Clashes (.file c) u := by
  rintro ⟨names, child, d, h⟩
  cases (met_file h).1

theorem not_clashes_none (source : Tree α) : ¬Clashes source none := by
  rintro ⟨names, child, d, h⟩
  cases (met_none h).2

theorem clashes_dir_iff :
    Clashes (.dir names child) (some (.dir toNames toChild)) ↔
      ∃ n ∈ entryList names, Clashes (child n) ((Node.dir toNames toChild).entry n) := by
  simp only [entryList, List.mem_filter, Bool.not_eq_true']
  constructor
  · rintro ⟨ns, ch, d, h⟩
    cases h with
    | entry hn hv h => exact ⟨_, ⟨hn, hv⟩, ns, ch, d, h⟩
  · rintro ⟨n, ⟨hn, hv⟩, ns, ch, d, h⟩
    exact ⟨ns, ch, d, .entry hn hv h⟩

theorem clean_file_iff {c : α} {u : Option (Tree α)} :
    Clean F (.file c) u ↔ ∀ t, u = some t → F c t := by
  constructor
  · rintro h t rfl
    exact h.files c t .top
  · intro h
    constructor
    · intro ns ch tns tch hm
      cases (met_file hm).1
    · intro d t hm
      obtain ⟨hd, ht⟩ := met_file hm
      cases hd
      exact h t ht.symm

theorem clean_none (source : Tree α) : Clean F source none := by
  constructor
  · intro ns ch tns tch hm
    cases (met_none hm).2
  · intro d t hm
    cases (met_none hm).2

theorem clean_dir_iff :
    Clean F (.dir names child) (some (.dir toNames toChild)) ↔
      ∀ n ∈ names.list,
        (isHidden n = true → Within (some (child n)) ((Node.dir toNames toChild).entry n)) ∧
        (isHidden n = false → Clean F (child n) ((Node.dir toNames toChild).entry n)) := by
  constructor
  · intro h n hn
    refine ⟨h.hidden names child toNames toChild .top n hn, fun hv => ?_⟩
    constructor
    · intro ns ch tns tch hm
      exact h.hidden ns ch tns tch (.entry hn hv hm)
    · intro c t hm
      exact h.files c t (.entry hn hv hm)
  · intro h
    constructor
    · intro ns ch tns tch hm
      cases hm with
      | top => exact fun n hn => (h n hn).1
      | entry hn hv hm => exact ((h _ hn).2 hv).hidden ns ch tns tch hm
    · intro c t hm
      cases hm with
      | entry hn hv hm => exact ((h _ hn).2 hv).files c t hm

end Met

/-! ## The loop -/

section Loop

variable {F : α → Tree α → Prop} {names toNames : Names (List Char)} {child toChild : List Char → Tree α}
  {item : List Char → Option (Tree α) → Except MergeError (Tree α)}

theorem entryList_nodup (names : Names (List Char)) : (entryList names).Nodup :=
  names.nodup.filter _

/-- If the entries fail where they clash, so does the loop. -/
theorem updateEach_clashes_iff
    (hitem : ∀ n t, (∃ e, item n t = .error e) ↔ Clashes (child n) t) :
    (∃ e, updateEach item (entryList names) (.dir toNames toChild) = .error e) ↔
      Clashes (.dir names child) (some (.dir toNames toChild)) := by
  rw [updateEach_error_iff (Node.isDir_dir _ _) (entryList_nodup names), clashes_dir_iff]
  simp only [hitem]

/-- If the entries are overlaid where they are clean, so are the directories. -/
theorem updateEach_clean_iff
    (hitem : ∀ n t e, item n t = .ok e →
      (Overlay (some (child n)) t (some e) ↔ Clean F (child n) t)) {t' : Tree α}
    (h : updateEach item (entryList names) (.dir toNames toChild) = .ok t') :
    Overlay (some (.dir names child)) (some (.dir toNames toChild)) (some t') ↔
      Clean F (.dir names child) (some (.dir toNames toChild)) := by
  obtain ⟨-, hentry⟩ := updateEach_entry (Node.isDir_dir _ _) (entryList_nodup names) h
  rw [overlay_dir_iff (Node.isDir_dir _ _) (Node.isDir_dir _ _), clean_dir_iff]
  have hsource : ∀ n ∈ names.list, (Node.dir names child).entry n = some (child n) :=
    fun n hn => if_pos hn
  have hvisible : ∀ n ∈ names.list, isHidden n = false →
      (Overlay ((Node.dir names child).entry n) ((Node.dir toNames toChild).entry n) (t'.entry n) ↔
        Clean F (child n) ((Node.dir toNames toChild).entry n)) := by
    intro n hn hv
    have hmem : n ∈ entryList names := List.mem_filter.mpr ⟨hn, by rw [hv]; rfl⟩
    obtain ⟨e, he, ht'⟩ := (hentry n).1 hmem
    rw [hsource n hn, ht']
    exact hitem n _ e he
  have hhidden : ∀ n ∈ names.list, isHidden n = true →
      (Overlay ((Node.dir names child).entry n) ((Node.dir toNames toChild).entry n) (t'.entry n) ↔
        Within (some (child n)) ((Node.dir toNames toChild).entry n)) := by
    intro n hn hv
    have hmem : n ∉ entryList names := fun hmem => by simp [entryList, hv] at hmem
    rw [hsource n hn, (hentry n).2 hmem]
    exact overlay_unchanged_iff _ _
  constructor
  · intro hall n hn
    exact ⟨fun hv => (hhidden n hn hv).mp (hall n), fun hv => (hvisible n hn hv).mp (hall n)⟩
  · intro hall n
    by_cases hn : n ∈ names.list
    · cases hv : isHidden n with
      | true => exact (hhidden n hn hv).mpr ((hall n hn).1 hv)
      | false => exact (hvisible n hn hv).mpr ((hall n hn).2 hv)
    · have hmem : n ∉ entryList names := fun hmem => hn (List.mem_filter.mp hmem).1
      have hnone : (Node.dir names child).entry n = none := if_neg hn
      rw [hnone, (hentry n).2 hmem]
      exact (overlay_unchanged_iff _ _).mpr (within_none _)

end Loop

theorem map_error_iff {β γ : Type} {f : β → γ} {x : Except MergeError β} :
    (∃ e, x.map f = .error e) ↔ ∃ e, x = .error e := by
  cases x with
  | error e => exact ⟨fun _ => ⟨e, rfl⟩, fun _ => ⟨e, rfl⟩⟩
  | ok b =>
    constructor
    · rintro ⟨e, he⟩
      cases he
    · rintro ⟨e, he⟩
      cases he

theorem map_ok {β γ : Type} {f : β → γ} {x : Except MergeError β} {r : γ} (h : x.map f = .ok r) :
    ∃ b, x = .ok b ∧ f b = r := by
  cases x with
  | error e => cases h
  | ok b =>
    cases h
    exact ⟨b, rfl, rfl⟩

/-- The claim, once it is known when the merge fails and when its result is an overlay. -/
theorem overlay_of_ok_iff {x : Except MergeError (Merged α)} {P : Merged α → Prop} {C D : Prop}
    (herror : (∃ e, x = .error e) ↔ C) (hok : ∀ r, x = .ok r → (P r ↔ D)) :
    (∀ r, x = .ok r → P r) ↔ C ∨ D := by
  cases x with
  | error e => exact ⟨fun _ => .inl (herror.mp ⟨e, rfl⟩), fun _ r hr => nomatch hr⟩
  | ok r =>
    constructor
    · intro h
      exact .inr ((hok r rfl).mp (h r rfl))
    · rintro (hC | hD) r' hr'
      · obtain ⟨e, he⟩ := herror.mpr hC
        cases he
      · exact (hok r' hr').mpr hD

namespace Apk

theorem mergeEntry_error_iff (source : Tree α) (t : Option (Tree α)) :
    (∃ e, mergeEntry source t = .error e) ↔ Clashes source t := by
  induction source generalizing t with
  | file c =>
    refine iff_of_false ?_ (not_clashes_file c t)
    rintro ⟨e, he⟩
    cases t with
    | none => cases he
    | some t => cases he
  | dir names child ih =>
    rw [mergeEntry, map_error_iff]
    match t with
    | none =>
      refine iff_of_false ?_ (not_clashes_none _)
      rintro ⟨e, he⟩
      cases he
    | some (.file c) => exact ⟨fun _ => ⟨names, child, c, .top⟩, fun _ => ⟨_, rfl⟩⟩
    | some (.dir toNames toChild) =>
      rw [mergeDirsRecusive_dir, map_error_iff]
      exact updateEach_clashes_iff ih

theorem mergeEntry_overlay_iff (source : Tree α) (t : Option (Tree α)) (t' : Tree α)
    (h : mergeEntry source t = .ok t') :
    Overlay (some source) t (some t') ↔ Clean SameFile source t := by
  induction source generalizing t t' with
  | file c =>
    rw [clean_file_iff]
    cases t with
    | none =>
      cases h
      refine iff_of_true (overlay_none _) ?_
      intro t ht
      cases ht
    | some t =>
      cases h
      rw [overlay_unchanged_iff]
      constructor
      · intro hw u hu
        cases hu
        have hc := hw [] c rfl
        cases t' with
        | file d =>
          cases hc
          rfl
        | dir names child => cases hc
      · intro hs path d hd
        rw [hs t' rfl]
        exact hd
  | dir names child ih =>
    obtain ⟨r, hr, rfl⟩ := map_ok h
    match t with
    | none =>
      cases hr
      exact iff_of_true (overlay_none _) (clean_none _)
    | some (.file c) => cases hr
    | some (.dir toNames toChild) =>
      rw [mergeDirsRecusive_dir] at hr
      obtain ⟨u, hu, rfl⟩ := map_ok hr
      exact updateEach_clean_iff ih hu

theorem merges_iff (names : Names (List Char)) (child : List Char → Tree α)
    (target : Option (Tree α)) :
    Merges (.dir names child) target ↔
      Clashes (.dir names child) target ∨ Clean SameFile (.dir names child) target := by
  apply overlay_of_ok_iff
  · rw [← mergeEntry_error_iff, mergeEntry, map_error_iff]
  · intro r hr
    apply mergeEntry_overlay_iff
    rw [mergeEntry, hr]
    rfl

end Apk

namespace Zip

theorem mergeDirsRecusive_error_iff (source : Tree α) (t : Option (Tree α))
    (target : List (List Char)) :
    (∃ e, mergeDirsRecusive source t target = .error e) ↔ Clashes source t := by
  induction source generalizing t target with
  | file c =>
    refine iff_of_false ?_ (not_clashes_file c t)
    rintro ⟨e, he⟩
    cases he
  | dir names child ih =>
    match t with
    | none =>
      refine iff_of_false ?_ (not_clashes_none _)
      rintro ⟨e, he⟩
      cases he
    | some (.file c) => exact ⟨fun _ => ⟨names, child, c, .top⟩, fun _ => ⟨_, rfl⟩⟩
    | some (.dir toNames toChild) =>
      rw [mergeDirsRecusive, map_error_iff]
      apply updateEach_clashes_iff
      intro n t
      rw [map_error_iff]
      exact ih n t (target ++ [n])

theorem mergeDirsRecusive_overlay_iff (source : Tree α) (t : Option (Tree α))
    (target : List (List Char)) (r : Merged α) (h : mergeDirsRecusive source t target = .ok r) :
    Overlay (some source) t (some r.target) ↔ Clean NoFilesBelow source t := by
  induction source generalizing t target r with
  | file c =>
    cases h
    rw [clean_file_iff]
    constructor
    · rintro ⟨-, hold⟩ t rfl n path
      apply Option.eq_none_iff_forall_ne_some.mpr
      intro d hd
      cases hold (n :: path) d rfl hd
    · intro hn
      refine ⟨fun path d hd => hd, fun path d hd hold => ?_⟩
      cases path with
      | nil => cases hd
      | cons n path =>
        cases t with
        | none => cases hold
        | some t =>
          rw [fileAt?_some, hn t rfl n path] at hold
          cases hold
  | dir names child ih =>
    match t with
    | none =>
      cases h
      exact iff_of_true (overlay_none _) (clean_none _)
    | some (.file c) => cases h
    | some (.dir toNames toChild) =>
      rw [mergeDirsRecusive] at h
      obtain ⟨u, hu, rfl⟩ := map_ok h
      apply updateEach_clean_iff _ hu
      intro n t e he
      obtain ⟨r, hr, rfl⟩ := map_ok he
      exact ih n t (target ++ [n]) r hr

theorem merges_iff (names : Names (List Char)) (child : List Char → Tree α)
    (target : Option (Tree α)) :
    Merges (.dir names child) target ↔
      Clashes (.dir names child) target ∨ Clean NoFilesBelow (.dir names child) target := by
  apply overlay_of_ok_iff
  · exact mergeDirsRecusive_error_iff _ _ _
  · intro r hr
    exact mergeDirsRecusive_overlay_iff _ _ _ r hr

end Zip

/-- **When merging is an overlay**, for every extracted directory and whatever is at the target. -/
theorem mergeDirsRecusive_merges_iff (names : Names (List Char)) (child : List Char → Tree α)
    (target : Option (Tree α)) :
    (Apk.Merges (.dir names child) target ↔
      Clashes (.dir names child) target ∨ Clean SameFile (.dir names child) target) ∧
    (Zip.Merges (.dir names child) target ↔
      Clashes (.dir names child) target ∨ Clean NoFilesBelow (.dir names child) target) :=
  ⟨Apk.merges_iff names child target, Zip.merges_iff names child target⟩

/-- A directory with one file. -/
def singleFile (n : List Char) (c : Nat) : Tree Nat :=
  .dir ⟨[n], List.nodup_singleton n⟩ fun _ => .file c

/-- A file of a version that is imported again keeps its old content. -/
theorem not_merges_reimport : ¬Apk.Merges (singleFile ['a'] 2) (some (singleFile ['a'] 1)) := by
  intro h
  have hfile := (h ⟨_, false⟩ rfl).1 [['a']] 2 rfl
  exact absurd hfile (by decide)

end McpeLauncher.Extract
