import McpeLauncher.Extract.ImportTasks

/-!
# Where an archive is extracted

Which output names stay in the temporary directory, whatever the file system answers. A name that
does not is written outside by a file system that creates and opens what it can.
-/

namespace McpeLauncher.Extract
open LexicalPath ZipExtractor

def Op.path : Op → Path
  | .mkdir path _ => path
  | .fopen path _ => path

/-- The call created a directory, or opened a file for writing. -/
def Op.Writes : Op → Prop
  | .mkdir _ r => r = .created
  | .fopen _ ok => ok = true

def Confined (dir : Directory) (h : List Op) : Prop := ∀ op ∈ h, op.Writes → dir.Inside op.path

/-- The last component names something. -/
def endsInName (p : Path) : Bool :=
  match p.getLast? with
  | some c => IsName c
  | none => false

/-- The temporary directory and those above it exist: they can neither be created nor opened for
writing. A path that ends in `/`, `.` or `..` cannot be opened for writing either. -/
structure Sane (os : Os) (dir : Directory) : Prop where
  mkdir : ∀ h p, dir.Above p → os.mkdir h p ≠ .created
  fopen : ∀ h p, os.fopen h p = true → ¬dir.Above p ∧ endsInName p = true

/-- On its way, the path climbs above where it starts and then names something there. -/
def Escapes (q : Path) : Prop := ∃ q', q' <+: q ∧ (relative q').ups ≠ 0 ∧ (relative q').rest ≠ []

/-- Entries with their output names, up to the first one that cannot be extracted; `next` is about
what comes after all of them. -/
def SafeFiles : List (Entry × Path) → Prop → Prop
  | [], next => next
  | (e, q) :: files, next => e.stat = true → e.opened = true →
    ¬Escapes q ∧ (endsInName q = true → SafeFiles files next)

/-- The entries that are selected, with their output names below the temporary directory. -/
def selected (filter : List Char → Option (List Char)) (entries : List Entry) :
    List (Entry × Path) :=
  entries.filterMap fun e => (filter e.name).map fun out => (e, components out)

def Archive.Safe (a : Archive) (filter : List Char → Option (List Char)) (next : Prop) : Prop :=
  a.openError = none → a.entries.all Entry.listed = true →
    SafeFiles (selected filter a.entries) next

/-! ## Output names -/

section Names

variable {dir : Directory} {q : Path}

theorem select_eq (filter : List Char → Option (List Char)) (entries : List Entry)
    (dir : Directory) :
    select (fun name => (filter name).map fun out => dir.path ++ components out) entries =
      (selected filter entries).map fun f => (f.1, dir.path ++ f.2) := by
  rw [select, selected, List.map_filterMap]
  congr 1
  funext e
  simp only [Option.map_map]
  rfl

/-- A path that ends in a name goes somewhere. -/
theorem rest_ne_nil_of_endsInName (h : endsInName q = true) : (relative q).rest ≠ [] := by
  cases q using List.reverseRecOn with
  | nil => cases h
  | append_singleton q c =>
    have hc : IsName c := by simpa [endsInName] using h
    rw [relative_append_singleton, hc.relative_push]
    exact List.append_ne_nil_of_right_ne_nil _ (List.cons_ne_nil c [])

theorem endsInName_append {p : Path} (hq : q ≠ []) : endsInName (p ++ q) = endsInName q := by
  rw [endsInName, endsInName, List.getLast?_append_of_ne_nil p hq]

/-- The output name and its beginnings: each is inside the directory, or it or what is above. -/
theorem above_or_inside (dir : Directory) (hq : ¬Escapes q) (i : Nat) :
    dir.Above ((dir.path ++ q).take i) ∨ dir.Inside ((dir.path ++ q).take i) := by
  rw [List.take_append]
  rcases Nat.le_total i dir.path.length with hi | hi
  · rw [Nat.sub_eq_zero_of_le hi, List.take_zero, List.append_nil]
    exact .inl (dir.above_take i)
  · rw [List.take_of_length_le hi]
    by_cases hrest : (relative (q.take (i - dir.path.length))).rest = []
    · exact .inl (Directory.above_of_rest hrest)
    · refine .inr (Directory.inside_of_rest ?_ hrest)
      by_contra hups
      exact hq ⟨_, List.take_prefix _ q, hups, hrest⟩

end Names

/-! ## Safe archives stay inside -/

section Safe

variable {os : Os} {dir : Directory} {q : Path} {h : List Op}

theorem Confined.snoc (hh : Confined dir h) {op : Op} (hop : op.Writes → dir.Inside op.path) :
    Confined dir (h ++ [op]) := by
  intro o ho
  rcases List.mem_append.mp ho with ho | ho
  · exact hh o ho
  · rw [List.mem_singleton.mp ho]
    exact hop

/-- A directory on the way to an output file that is created is inside. -/
theorem Sane.mkdir_inside (hos : Sane os dir) (hq : ¬Escapes q) (i : Nat) (h : List Op) :
    Op.Writes (.mkdir ((dir.path ++ q).take i) (os.mkdir h ((dir.path ++ q).take i))) →
      dir.Inside ((dir.path ++ q).take i) := by
  intro hw
  rcases above_or_inside dir hq i with ha | hi
  · exact absurd hw (hos.mkdir h _ ha)
  · exact hi

theorem mkdirRecursive_confined (hos : Sane os dir) (hq : ¬Escapes q) (n : Nat)
    (createThisDir : Bool)
    (hh : Confined dir h) : Confined dir (mkdirRecursive os (dir.path ++ q) n createThisDir h) := by
  induction n generalizing createThisDir h with
  | zero => exact hh
  | succ n ih =>
    rw [mkdirRecursive]
    split
    · have hfirst := hh.snoc (hos.mkdir_inside hq (n + 1) h)
      simp only
      split
      · exact hfirst
      · exact (ih true hfirst).snoc (hos.mkdir_inside hq (n + 1) _)
    · exact ih true hh

/-- The history and the success of `extractFile`. -/
theorem extractFile_cases (os : Os) (bufSize : Nat) (e : Entry) (target : Path) (h : List Op) :
    let h' := mkdirRecursive os target target.length false h
    (os.fopen h' target = true ∧ ∃ r, extractFile os bufSize e target h =
      (.ok r, h' ++ [.fopen target true])) ∨
    (os.fopen h' target = false ∧ ∃ x, extractFile os bufSize e target h =
      (.error x, h' ++ [.fopen target false])) := by
  simp only [extractFile]
  cases os.fopen (mkdirRecursive os target target.length false h) target with
  | true => exact .inl ⟨rfl, _, rfl⟩
  | false => exact .inr ⟨rfl, _, rfl⟩

theorem extractFile_confined (hos : Sane os dir) (hq : ¬Escapes q) (bufSize : Nat) (e : Entry)
    (hh : Confined dir h) : Confined dir (extractFile os bufSize e (dir.path ++ q) h).2 := by
  have hmkdir := mkdirRecursive_confined hos hq (dir.path ++ q).length false hh
  rcases extractFile_cases os bufSize e (dir.path ++ q) h with ⟨hopen, r, hr⟩ | ⟨-, x, hr⟩
  · rw [hr]
    apply hmkdir.snoc
    intro _
    have hi := above_or_inside dir hq (dir.path ++ q).length
    rw [List.take_length] at hi
    exact hi.resolve_left (hos.fopen _ _ hopen).1
  · rw [hr]
    exact hmkdir.snoc fun hw => absurd hw Bool.false_ne_true

/-- A file that is opened has a name of its own. -/
theorem endsInName_of_ok (hos : Sane os dir) {bufSize : Nat} {e : Entry} {r : _} {h' : List Op}
    (hr : extractFile os bufSize e (dir.path ++ q) h = (.ok r, h')) : endsInName q = true := by
  rcases extractFile_cases os bufSize e (dir.path ++ q) h with ⟨hopen, -⟩ | ⟨-, x, hx⟩
  · obtain ⟨habove, hname⟩ := hos.fopen _ _ hopen
    have hq : q ≠ [] := by
      rintro rfl
      exact habove (Directory.above_of_rest rfl)
    rwa [endsInName_append hq] at hname
  · rw [hx] at hr
    cases hr

/-- The file after which the loop ends, or the state after the first one. -/
theorem extractFiles_cases (os : Os) (totalSize : Nat) (e : Entry) (target : Path)
    (files : List (Entry × Path)) (current : Nat) (h : List Op) :
    ((∃ x, extractFiles os totalSize ((e, target) :: files) current h = (.error x, h)) ∧
      ¬(e.stat = true ∧ e.opened = true)) ∨
    e.stat = true ∧ e.opened = true ∧
      ((∃ x h', extractFile os defaultBufSize e target h = (.error x, h') ∧
          extractFiles os totalSize ((e, target) :: files) current h = (.error x, h')) ∨
        ∃ r h', extractFile os defaultBufSize e target h = (.ok r, h') ∧
          ((∃ x h'', extractFiles os totalSize files (current + e.data.length) h' =
                (.error x, h'') ∧
              extractFiles os totalSize ((e, target) :: files) current h = (.error x, h'')) ∨
            ∃ o outputs h'', extractFiles os totalSize files (current + e.data.length) h' =
                (.ok outputs, h'') ∧
              extractFiles os totalSize ((e, target) :: files) current h =
                  (.ok (o :: outputs), h''))) := by
  rw [extractFiles]
  cases hstat : e.stat with
  | false => exact .inl ⟨⟨_, rfl⟩, fun hno => nomatch hno.1⟩
  | true =>
    cases hopened : e.opened with
    | false => exact .inl ⟨⟨_, rfl⟩, fun hno => nomatch hno.2⟩
    | true =>
      refine .inr ⟨rfl, rfl, ?_⟩
      simp only [Bool.not_true, Bool.false_eq_true, if_false]
      split
      · rename_i x h' hr
        exact .inl ⟨x, h', hr, rfl⟩
      · rename_i file progress h' hr
        refine .inr ⟨(file, progress), h', hr, ?_⟩
        split
        · rename_i x h'' hrest
          exact .inl ⟨x, h'', hrest, rfl⟩
        · rename_i outputs h'' hrest
          exact .inr ⟨_, outputs, h'', hrest, rfl⟩

/-- The files with their output names in the temporary directory. -/
def underDir (dir : Directory) (files : List (Entry × Path)) : List (Entry × Path) :=
  files.map fun f => (f.1, dir.path ++ f.2)

theorem extractFiles_confined (hos : Sane os dir) (totalSize : Nat) {files : List (Entry × Path)}
    {next : Prop} (hs : SafeFiles files next) (current : Nat) (hh : Confined dir h) :
    Confined dir (extractFiles os totalSize (underDir dir files) current h).2 ∧
    ∀ outputs, (extractFiles os totalSize (underDir dir files) current h).1 = .ok outputs →
      next := by
  induction files generalizing current h with
  | nil => exact ⟨hh, fun _ _ => hs⟩
  | cons f files ih =>
    obtain ⟨e, q⟩ := f
    obtain ⟨⟨x, hr⟩, -⟩ | ⟨hstat, hopened, hcases⟩ := extractFiles_cases os totalSize e
      (dir.path ++ q) (underDir dir files) current h
    · rw [underDir, List.map_cons, ← underDir, hr]
      exact ⟨hh, fun _ ho => nomatch ho⟩
    · obtain ⟨hq, hnext⟩ := hs hstat hopened
      have hfile := extractFile_confined hos hq defaultBufSize e hh
      rcases hcases with ⟨x, h', hx, hr⟩ | ⟨r, h', hx, hcases⟩
      · rw [hx] at hfile
        rw [underDir, List.map_cons, ← underDir, hr]
        exact ⟨hfile, fun _ ho => nomatch ho⟩
      · rw [hx] at hfile
        have hrest := ih (hnext (endsInName_of_ok hos hx)) (current + e.data.length) hfile
        rcases hcases with ⟨x, h'', hx, hr⟩ | ⟨o, outputs, h'', hx, hr⟩
        · rw [hx] at hrest
          rw [underDir, List.map_cons, ← underDir, hr]
          exact ⟨hrest.1, fun _ ho => nomatch ho⟩
        · rw [hx] at hrest
          rw [underDir, List.map_cons, ← underDir, hr]
          exact ⟨hrest.1, fun _ _ => hrest.2 outputs rfl⟩

theorem Archive.extractTo_confined (hos : Sane os dir) {a : Archive}
    {filter : List Char → Option (List Char)} {next : Prop} (hs : a.Safe filter next)
    (hh : Confined dir h) :
    Confined dir (a.extractTo os dir filter h).2 ∧
    ∀ outputs, (a.extractTo os dir filter h).1 = .ok outputs → next := by
  rw [Archive.extractTo]
  split
  · exact ⟨hh, fun _ ho => nomatch ho⟩
  · rename_i herror
    rw [ZipExtractor.extractTo]
    split
    · rename_i hlisted
      rw [select_eq]
      exact extractFiles_confined hos _ (hs herror hlisted) 0 hh
    · exact ⟨hh, fun _ ho => nomatch ho⟩

end Safe

/-! ## The files that were opened -/

section Opened

variable {os : Os} {dir : Directory} {h : List Op}

theorem mem_mkdirRecursive_fopen (path : Path) (n : Nat) (createThisDir : Bool)
    {p : Path} {ok : Bool} :
    Op.fopen p ok ∈ mkdirRecursive os path n createThisDir h ↔ Op.fopen p ok ∈ h := by
  induction n generalizing createThisDir h with
  | zero => rfl
  | succ n ih =>
    rw [mkdirRecursive]
    split
    · simp only
      split
      · simp
      · simp [ih]
    · exact ih true

/-- If all files could be extracted, exactly they were opened. -/
theorem extractFiles_opened {totalSize current : Nat} {files : List (Entry × Path)} {outputs : _}
    {h' : List Op}
    (hr : extractFiles os totalSize (underDir dir files) current h = (.ok outputs, h')) (p : Path) :
    Op.fopen p true ∈ h' ↔ Op.fopen p true ∈ h ∨ ∃ f ∈ files, dir.path ++ f.2 = p := by
  induction files generalizing current h outputs with
  | nil =>
    cases hr
    simp
  | cons f files ih =>
    obtain ⟨e, q⟩ := f
    rw [underDir, List.map_cons, ← underDir] at hr
    obtain ⟨⟨x, hr'⟩, -⟩ | ⟨-, -, ⟨x, h₁, -, hr'⟩ | ⟨r, h₁, hx, hcases⟩⟩ :=
      extractFiles_cases os totalSize
      e (dir.path ++ q) (underDir dir files) current h
    · rw [hr'] at hr
      cases hr
    · rw [hr'] at hr
      cases hr
    · rcases hcases with ⟨x, h₂, -, hr'⟩ | ⟨o, outputs', h₂, hrest, hr'⟩
      · rw [hr'] at hr
        cases hr
      · rw [hr'] at hr
        cases hr
        rcases extractFile_cases os defaultBufSize e (dir.path ++ q) h with
          ⟨-, r', hfile⟩ | ⟨-, x, hfile⟩
        · cases hx.symm.trans hfile
          rw [ih hrest, List.mem_append, mem_mkdirRecursive_fopen, List.mem_singleton,
            Op.fopen.injEq]
          simp only [List.mem_cons, exists_eq_or_imp, and_true, or_assoc, eq_comm (a := p)]
        · cases hx.symm.trans hfile

theorem Archive.extractTo_opened {a : Archive} {filter : List Char → Option (List Char)}
    {outputs : _}
    {h' : List Op} (hr : a.extractTo os dir filter h = (.ok outputs, h')) (p : Path) :
    Op.fopen p true ∈ h' ↔
      Op.fopen p true ∈ h ∨ ∃ f ∈ selected filter a.entries, dir.path ++ f.2 = p := by
  rw [Archive.extractTo] at hr
  split at hr
  · cases hr
  rw [ZipExtractor.extractTo] at hr
  split at hr
  · rw [select_eq] at hr
    exact extractFiles_opened hr p
  · cases hr

end Opened

/-! ## Others do not -/

section Unsafe

variable {dir : Directory} {q : Path} {h : List Op}

/-- A file system that creates and opens what it can. -/
def permissive (dir : Directory) : Os where
  mkdir _ p := if resolve p <+: dir.names then .failed else .created
  fopen _ p := decide (¬resolve p <+: dir.names) && endsInName p

theorem permissive_sane (dir : Directory) : Sane (permissive dir) dir where
  mkdir h p ha := by
    have hfailed : (permissive dir).mkdir h p = .failed := if_pos ha
    rw [hfailed]
    exact MkdirResult.noConfusion
  fopen h p ho := by
    have ho : ¬resolve p <+: dir.names ∧ endsInName p = true := by simpa [permissive] using ho
    exact ho

theorem permissive_fopen (hf : dir.Fresh q) (hname : endsInName q = true) (h : List Op) :
    (permissive dir).fopen h (dir.path ++ q) = true := by
  have hne : q ≠ [] := by
    rintro rfl
    cases hname
  have habove : ¬dir.Above (dir.path ++ q) := by
    rw [hf.above_iff]
    exact rest_ne_nil_of_endsInName hname
  simp only [permissive, endsInName_append hne, hname, Bool.and_true, decide_eq_true_eq]
  exact habove

theorem mkdirRecursive_subset (os : Os) (path : Path) (n : Nat) (createThisDir : Bool) :
    h ⊆ mkdirRecursive os path n createThisDir h := by
  induction n generalizing createThisDir h with
  | zero => exact List.Subset.refl h
  | succ n ih =>
    rw [mkdirRecursive]
    split
    · simp only
      split
      · exact List.subset_append_left h _
      · intro op hop
        exact List.mem_append_left _ (ih true (List.mem_append_left _ hop))
    · exact ih true

theorem extractFile_subset (os : Os) (bufSize : Nat) (e : Entry) (target : Path) :
    h ⊆ (extractFile os bufSize e target h).2 := by
  have hmkdir := mkdirRecursive_subset os target target.length false (h := h)
  rcases extractFile_cases os bufSize e target h with ⟨-, r, hr⟩ | ⟨-, x, hr⟩
  · rw [hr]
    exact fun op hop => List.mem_append_left _ (hmkdir hop)
  · rw [hr]
    exact fun op hop => List.mem_append_left _ (hmkdir hop)

theorem extractFiles_subset (os : Os) (totalSize : Nat) (files : List (Entry × Path))
    (current : Nat) :
    h ⊆ (extractFiles os totalSize files current h).2 := by
  induction files generalizing current h with
  | nil => exact List.Subset.refl h
  | cons f files ih =>
    obtain ⟨e, target⟩ := f
    have hfile := extractFile_subset os defaultBufSize e target (h := h)
    obtain ⟨⟨x, hr⟩, -⟩ | ⟨-, -, ⟨x, h', hx, hr⟩ | ⟨r, h', hx, hcases⟩⟩ :=
      extractFiles_cases os totalSize
      e target files current h
    · rw [hr]
      exact List.Subset.refl h
    · rw [hx] at hfile
      rw [hr]
      exact hfile
    · rw [hx] at hfile
      have hrest := List.Subset.trans hfile (ih (current + e.data.length) (h := h'))
      rcases hcases with ⟨x, h'', hx, hr⟩ | ⟨o, outputs, h'', hx, hr⟩
      · rw [hx] at hrest
        rw [hr]
        exact hrest
      · rw [hx] at hrest
        rw [hr]
        exact hrest

/-- What is done for the first file is a part of all that is done. -/
theorem extractFile_subset_extractFiles (os : Os) (totalSize : Nat) {e : Entry}
    (hopens : e.stat = true ∧ e.opened = true) (target : Path) (files : List (Entry × Path))
    (current : Nat) :
    (extractFile os defaultBufSize e target h).2 ⊆
      (extractFiles os totalSize ((e, target) :: files) current h).2 := by
  obtain ⟨-, hno⟩ | ⟨-, -, ⟨x, h', hx, hr⟩ | ⟨r, h', hx, hcases⟩⟩ :=
    extractFiles_cases os totalSize e target files current h
  · exact absurd hopens hno
  · rw [hx, hr]
    exact List.Subset.refl h'
  · have hrest := extractFiles_subset os totalSize files (current + e.data.length) (h := h')
    rw [hx]
    rcases hcases with ⟨x, h'', hx, hr⟩ | ⟨o, outputs, h'', hx, hr⟩
    · rw [hx] at hrest
      rw [hr]
      exact hrest
    · rw [hx] at hrest
      rw [hr]
      exact hrest

theorem Archive.extractTo_subset (a : Archive) (os : Os) (dir : Directory)
    (filter : List Char → Option (List Char)) (h : List Op) :
    h ⊆ (a.extractTo os dir filter h).2 := by
  rw [Archive.extractTo]
  split
  · exact List.Subset.refl h
  rw [ZipExtractor.extractTo]
  split
  · exact extractFiles_subset os _ _ 0
  · exact List.Subset.refl h

/-- A beginning of the path that is not above the directory, or a longer one, is created. -/
theorem mkdirRecursive_creates (dir : Directory) (path : Path) {i n : Nat} (hi : i ≤ n)
    (ha : ¬dir.Above (path.take i)) :
    ∃ j, i ≤ j ∧ j ≤ n ∧
      Op.mkdir (path.take j) .created ∈ mkdirRecursive (permissive dir) path n true h := by
  induction n generalizing h with
  | zero =>
    rw [Nat.le_zero.mp hi] at ha
    exact absurd List.nil_prefix ha
  | succ n ih =>
    simp only [mkdirRecursive, if_true]
    by_cases hn : dir.Above (path.take (n + 1))
    · have hfailed : ∀ h, (permissive dir).mkdir h (path.take (n + 1)) = .failed :=
        fun _ => if_pos hn
      have hi' : i ≤ n := by
        rcases Nat.lt_or_eq_of_le hi with hlt | rfl
        · exact Nat.le_of_lt_succ hlt
        · exact absurd hn ha
      obtain ⟨j, hij, hjn, hmem⟩ := ih hi' (h := h ++ [.mkdir (path.take (n + 1)) .failed])
      refine ⟨j, hij, Nat.le_succ_of_le hjn, ?_⟩
      simp only [hfailed, reduceCtorEq, or_self, if_false]
      exact List.mem_append_left _ hmem
    · have hcreated : (permissive dir).mkdir h (path.take (n + 1)) = .created := if_neg hn
      refine ⟨n + 1, hi, Nat.le_refl _, ?_⟩
      simp only [hcreated, true_or, if_true]
      exact List.mem_append_right _ (.head [])

/-- A path that escapes does so before its end, or it ends in a name. -/
theorem Escapes.cases (h : Escapes q) :
    (∃ q', q' <+: q ∧ q'.length < q.length ∧ (relative q').ups ≠ 0 ∧ (relative q').rest ≠ []) ∨
    (relative q).ups ≠ 0 ∧ endsInName q = true := by
  obtain ⟨q', hq', hups, hrest⟩ := h
  rcases Nat.lt_or_ge q'.length q.length with hlt | hge
  · exact .inl ⟨q', hq', hlt, hups, hrest⟩
  · rw [hq'.eq_of_length_le hge] at hups hrest
    cases q using List.reverseRecOn with
    | nil => exact absurd rfl hups
    | append_singleton q c =>
      have hpre : q <+: q ++ [c] := List.prefix_append q [c]
      have hlen : q.length < (q ++ [c]).length := by simp
      rw [relative_append_singleton] at hrest
      rcases component_cases c with hdot | ⟨hdot, hup⟩ | hname
      · rw [relative_append_singleton] at hups
        rw [Relative.push, if_pos hdot] at hups hrest
        exact .inl ⟨q, hpre, hlen, hups, hrest⟩
      · rw [relative_append_singleton] at hups
        rw [Relative.push, if_neg hdot, if_pos hup] at hups hrest
        split at hrest
        · exact absurd rfl hrest
        · rename_i hne
          rw [if_neg hne] at hups
          exact .inl ⟨q, hpre, hlen, hups, hne⟩
      · exact .inr ⟨hups, by simpa [endsInName] using hname⟩

/-- **An output name that escapes is written outside.** -/
theorem extractFile_escapes (hf : dir.Fresh q) (hq : Escapes q) (bufSize : Nat) (e : Entry) :
    ¬Confined dir (extractFile (permissive dir) bufSize e (dir.path ++ q) h).2 := by
  intro hconf
  have hmkdir : mkdirRecursive (permissive dir) (dir.path ++ q) (dir.path ++ q).length false h ⊆
      (extractFile (permissive dir) bufSize e (dir.path ++ q) h).2 := by
    rcases extractFile_cases (permissive dir) bufSize e (dir.path ++ q) h with
      ⟨-, r, hr⟩ | ⟨-, x, hr⟩
    · rw [hr]
      exact List.subset_append_left _ _
    · rw [hr]
      exact List.subset_append_left _ _
  rcases hq.cases with ⟨q', hq', hlt, hups, hrest⟩ | ⟨hups, hname⟩
  · have htake : (dir.path ++ q).take (dir.path.length + q'.length) = dir.path ++ q' := by
      rw [List.take_length_add_append, List.prefix_iff_eq_take.mp hq', List.length_take,
        Nat.min_eq_left hlt.le]
    have habove : ¬dir.Above ((dir.path ++ q).take (dir.path.length + q'.length)) := by
      rw [htake, (hf.of_prefix hq').above_iff]
      exact hrest
    have hlen : (dir.path ++ q).length = (dir.path.length + q.length - 1) + 1 := by
      rw [List.length_append]
      omega
    obtain ⟨j, hij, -, hmem⟩ := mkdirRecursive_creates dir (dir.path ++ q) (h := h)
      (by omega : dir.path.length + q'.length ≤ dir.path.length + q.length - 1) habove
    have hin : dir.Inside ((dir.path ++ q).take j) := by
      apply hconf (.mkdir _ .created) (hmkdir _) rfl
      rw [hlen, mkdirRecursive]
      exact hmem
    rw [List.take_append, List.take_of_length_le (by omega)] at hin
    have hpre : q' <+: q.take (j - dir.path.length) := by
      rw [List.prefix_iff_eq_take.mp hq']
      exact List.take_prefix_take_left (by omega)
    refine (hf.of_prefix (List.take_prefix _ q)).not_inside ?_ hin
    have := ups_mono hpre
    omega
  · have hopen := permissive_fopen hf hname
    rcases extractFile_cases (permissive dir) bufSize e (dir.path ++ q) h with ⟨-, r, hr⟩ | ⟨ho, -⟩
    · rw [hr] at hconf
      exact hf.not_inside hups (hconf _ (List.mem_append_right _ (.head [])) rfl)
    · rw [hopen] at ho
      cases ho

theorem Confined.of_subset {h' : List Op} (hh : Confined dir h') (hsub : h ⊆ h') : Confined dir h :=
  fun op hop => hh op (hsub hop)

theorem extractFiles_unsafe {files : List (Entry × Path)} (hf : ∀ f ∈ files, dir.Fresh f.2)
    {next : Prop} (hs : ¬SafeFiles files next) (totalSize current : Nat) :
    ¬Confined dir (extractFiles (permissive dir) totalSize (underDir dir files) current h).2 ∨
    (∃ outputs, (extractFiles (permissive dir) totalSize (underDir dir files) current h).1 =
      .ok outputs) ∧ ¬next := by
  induction files generalizing current h with
  | nil => exact .inr ⟨⟨[], rfl⟩, hs⟩
  | cons f files ih =>
    obtain ⟨e, q⟩ := f
    simp only [SafeFiles, Classical.not_imp] at hs
    obtain ⟨hstat, hopened, hq⟩ := hs
    have hfq : dir.Fresh q := hf (e, q) (.head files)
    rw [underDir, List.map_cons, ← underDir]
    obtain ⟨-, hno⟩ | ⟨-, -, hcases⟩ :=
      extractFiles_cases (permissive dir) totalSize e (dir.path ++ q)
      (underDir dir files) current h
    · exact absurd ⟨hstat, hopened⟩ hno
    by_cases hesc : Escapes q
    · have hsub := extractFile_subset_extractFiles (permissive dir) totalSize ⟨hstat, hopened⟩
        (dir.path ++ q) (underDir dir files) current (h := h)
      exact .inl fun hconf => extractFile_escapes hfq hesc defaultBufSize e (hconf.of_subset hsub)
    · obtain ⟨hname, hs⟩ : endsInName q = true ∧ ¬SafeFiles files next := by
        rw [not_and, Classical.not_imp] at hq
        exact hq hesc
      rcases hcases with ⟨x, h', hx, -⟩ | ⟨r, h', -, hcases⟩
      · rcases extractFile_cases (permissive dir) defaultBufSize e (dir.path ++ q) h with
          ⟨-, r, hr⟩ | ⟨ho, -⟩
        · cases hx.symm.trans hr
        · rw [permissive_fopen hfq hname] at ho
          cases ho
      · have hrest := ih (fun f hmem => hf f (.tail _ hmem)) hs (current + e.data.length) (h := h')
        rcases hcases with ⟨x, h'', hx, hr⟩ | ⟨o, outputs, h'', hx, hr⟩
        · rw [hx] at hrest
          rw [hr]
          refine hrest.imp id ?_
          rintro ⟨⟨_, ho⟩, -⟩
          cases ho
        · rw [hx] at hrest
          rw [hr]
          exact hrest.imp id fun hn => ⟨⟨_, rfl⟩, hn.2⟩

theorem Archive.extractTo_unsafe {a : Archive} {filter : List Char → Option (List Char)}
    (hf : ∀ f ∈ selected filter a.entries, dir.Fresh f.2) {next : Prop} (hs : ¬a.Safe filter next) :
    ¬Confined dir (a.extractTo (permissive dir) dir filter h).2 ∨
    (∃ outputs, (a.extractTo (permissive dir) dir filter h).1 = .ok outputs) ∧ ¬next := by
  simp only [Archive.Safe, Classical.not_imp] at hs
  obtain ⟨herror, hlisted, hs⟩ := hs
  rw [Archive.extractTo, herror]
  simp only [ZipExtractor.extractTo, if_pos hlisted, select_eq]
  exact extractFiles_unsafe hf hs _ 0

end Unsafe

end McpeLauncher.Extract
