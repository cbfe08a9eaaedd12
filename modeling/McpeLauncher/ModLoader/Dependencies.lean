import McpeLauncher.Lib.Elf

/-!
# The dependencies of a mod

`ModLoader::getModDependencies` reads the names in the `DT_NEEDED` entries of a mod: file header,
program headers, dynamic section and string table one after the other, with sizes and positions from
the file. It takes an entry of the program headers for a whole `ElfW(Phdr)`, an index for one into
the string table, and the entries behind `DT_NULL` for entries of the section (`readsRight_iff`).

An access outside a buffer has no defined behaviour, and neither has an `int` that overflows: the
result is `none`. There is always enough memory.
-/

namespace McpeLauncher.ModLoader
open Elf

/-! ## The file -/

/-- A file that is open for reading. -/
structure OpenFile where
  content : Bytes
  pos : Nat

namespace OpenFile

/-- `fseek` with `SEEK_SET`. The offset is taken for a `long`; if that is negative, nothing
happens. -/
def fseek (c : ElfClass) (f : OpenFile) (off : Nat) : OpenFile :=
  if off ≤ c.maxSigned then { f with pos := off } else f

/-- `fread`: what has been read, and the number of whole items. -/
def fread (f : OpenFile) (size n : Nat) : Bytes × Nat × OpenFile :=
  let data := slice f.content f.pos (size * n)
  (data, data.length / size, { f with pos := f.pos + data.length })

end OpenFile

/-- A field of a structure that is read in a buffer. -/
def readField (buf : Bytes) (pos n : Nat) : Option Nat :=
  if pos + n ≤ buf.length then some (field buf pos n) else none

/-- The string that the constructor of `std::string` finds at `&strtab[index]`. -/
def readString (strtab : Bytes) (index : Nat) : Option Bytes :=
  if Terminated strtab index then some (stringAt strtab index) else none

/-! ## The function -/

/-- `INT_MAX`. -/
def intMax : Nat := 0x7FFFFFFF

/-- What ends the function early. All but the last are only logged. -/
inductive DependencyError
  | openMod
  | readHeader
  | readPhnum
  | noDynamic
  | readDynamic
  | noStrtab
  | readStrtab
  | lengthError
  deriving DecidableEq, Repr

/-- The text in the log, if there is one. -/
def DependencyError.log : DependencyError → Option String
  | openMod => some "getModDependencies: failed to open mod"
  | readHeader => some "getModDependencies: failed to read header"
  | readPhnum => some "getModDependencies: failed to read phnum"
  | noDynamic => some "getModDependencies: couldn't find PT_DYNAMIC"
  | readDynamic => some "getModDependencies: failed to read PT_DYNAMIC"
  | noStrtab => some "getModDependencies: couldn't find strtab"
  | readStrtab => some "getModDependencies: failed to read strtab"
  | lengthError => none

/-- What the function returns; `none` if it throws. -/
def returned (r : Except DependencyError (List Bytes)) : Option (List Bytes) :=
  match r with
  | .ok names => some names
  | .error e => e.log.map fun _ => []

/-- The last of the first `n` entries for the dynamic section. -/
def findDynamic (phdr : Bytes) (phentsize : Nat) : Nat → Option (Option Nat)
  | 0 => some none
  | i + 1 => do
    let dynamicEntry ← findDynamic phdr phentsize i
    let type ← readField phdr (phentsize * i) 4
    some (if type = ptDynamic then some i else dynamicEntry)

/-- `strtabOff` and `strtabSize`. -/
def findStrtab (dynamicData : List Dyn) : Nat × Nat :=
  dynamicData.foldl (fun s d =>
    if d.tag = dtStrtab then (d.val, s.2)
    else if d.tag = dtStrsz then (s.1, d.val)
    else s) (0, 0)

/-- The function from the search for the string table on. -/
def readNames (c : ElfClass) (dynamicData : List Dyn) (f : OpenFile) :
    Option (Except DependencyError (List Bytes)) :=
  let (strtabOff, strtabSize) := findStrtab dynamicData
  if strtabOff = 0 ∨ strtabSize = 0 then some (.error .noStrtab)
  else if c.maxSigned < strtabSize then some (.error .lengthError)
  else
    let (strtab, n, _) := (f.fseek c strtabOff).fread 1 strtabSize
    if n ≠ strtabSize then some (.error .readStrtab)
    else ((neededEntries dynamicData).mapM fun d => readString strtab d.val).map .ok

/-- The function from the reading of the dynamic section on. Its loops count with an `int`. -/
def readDynamic (c : ElfClass) (offset filesz : Nat) (f : OpenFile) :
    Option (Except DependencyError (List Bytes)) :=
  let dynamicDataCount := filesz / c.sizeofDyn
  let (dynamicData, n, f) := (f.fseek c offset).fread c.sizeofDyn dynamicDataCount
  if n ≠ dynamicDataCount then some (.error .readDynamic)
  else if intMax < dynamicDataCount then none
  else readNames c (dynamics c dynamicData 0 dynamicDataCount) f

/-- The function from the reading of the program headers on. Their size is an `int`. -/
def readPhdrs (c : ElfClass) (header : Ehdr) (f : OpenFile) :
    Option (Except DependencyError (List Bytes)) :=
  if intMax < header.phentsize * header.phnum then none
  else
    let (phdr, n, f) := (f.fseek c header.phoff).fread header.phentsize header.phnum
    if n ≠ header.phnum then some (.error .readPhnum)
    else do
      match ← findDynamic phdr header.phentsize header.phnum with
      | none => some (.error .noDynamic)
      | some i => do
        let filesz ← readField phdr (header.phentsize * i + c.posFilesz) c.word
        let offset ← readField phdr (header.phentsize * i + c.posOffset) c.word
        readDynamic c offset filesz f

/-- `ModLoader::getModDependencies` for the content of the file, if it can be opened. -/
def getModDependencies (c : ElfClass) (file : Option Bytes) :
    Option (Except DependencyError (List Bytes)) :=
  match file with
  | none => some (.error .openMod)
  | some content =>
    let (header, n, f) := (OpenFile.mk content 0).fread c.sizeofEhdr 1
    if n ≠ 1 then some (.error .readHeader)
    else readPhdrs c (Ehdr.ofBytes c header) f

/-- The reader only reads inside its buffers, and of a well-formed file it returns the names of the
needed libraries. -/
def ReadsRight (c : ElfClass) (bytes : Bytes) : Prop :=
  ∃ r, getModDependencies c (some bytes) = some r ∧ (WellFormed c bytes →
    (∀ i, (PhdrTable.ofBytes c bytes).IsDynamic bytes i →
      returned r = some (neededNames bytes (dynamicSection c bytes i))) ∧
    ((∀ i, ¬(PhdrTable.ofBytes c bytes).IsDynamic bytes i) → returned r = some []))

/-! ## What is read -/

/-- Where `fseek` leads from the position `pos`. -/
def seek (c : ElfClass) (pos off : Nat) : Nat := if off ≤ c.maxSigned then off else pos

/-- The table of program headers that is read. -/
def readTable (c : ElfClass) (bytes : Bytes) : PhdrTable :=
  { PhdrTable.ofBytes c bytes with
    start := seek c c.sizeofEhdr (PhdrTable.ofBytes c bytes).start }

/-- The header and the program headers are in the file. -/
def TableRead (c : ElfClass) (bytes : Bytes) : Prop :=
  c.sizeofEhdr ≤ bytes.length ∧ ((readTable c bytes).num = 0 ∨
    (readTable c bytes).entsize ≠ 0 ∧ (readTable c bytes).stop ≤ bytes.length)

instance (c : ElfClass) (bytes : Bytes) : Decidable (TableRead c bytes) :=
  inferInstanceAs (Decidable (_ ∧ _))

def sectionStart (c : ElfClass) (bytes : Bytes) (i : Nat) : Nat :=
  seek c (readTable c bytes).stop ((readTable c bytes).offset c bytes i)

def sectionCount (c : ElfClass) (bytes : Bytes) (i : Nat) : Nat :=
  (readTable c bytes).filesz c bytes i / c.sizeofDyn

def sectionStop (c : ElfClass) (bytes : Bytes) (i : Nat) : Nat :=
  sectionStart c bytes i + c.sizeofDyn * sectionCount c bytes i

/-- The entries of the dynamic section that are read. -/
def readEntries (c : ElfClass) (bytes : Bytes) (i : Nat) : List Dyn :=
  dynamics c bytes (sectionStart c bytes i) (sectionCount c bytes i)

/-- The last dynamic section is in the file. -/
def SectionRead (c : ElfClass) (bytes : Bytes) (i : Nat) : Prop :=
  TableRead c bytes ∧ (readTable c bytes).LastDynamic bytes i ∧
    (sectionCount c bytes i = 0 ∨ sectionStop c bytes i ≤ bytes.length)

/-- The string table that is read behind a dynamic section that ends at `pos`. -/
def readStrtab (c : ElfClass) (bytes : Bytes) (pos : Nat) (ds : List Dyn) : Bytes :=
  slice bytes (seek c pos (lastValue dtStrtab ds)) (lastValue dtStrsz ds)

/-- There is a string table, and it is in the file. -/
def StrtabRead (c : ElfClass) (bytes : Bytes) (pos : Nat) (ds : List Dyn) : Prop :=
  lastValue dtStrtab ds ≠ 0 ∧ lastValue dtStrsz ds ≠ 0 ∧ lastValue dtStrsz ds ≤ c.maxSigned ∧
    seek c pos (lastValue dtStrtab ds) + lastValue dtStrsz ds ≤ bytes.length

instance (c : ElfClass) (bytes : Bytes) (pos : Nat) (ds : List Dyn) :
    Decidable (StrtabRead c bytes pos ds) :=
  inferInstanceAs (Decidable (_ ∧ _))

/-- What keeps the reader inside its buffers: entries of the program headers that have a type and,
for the dynamic section, an offset and a size in the table, numbers of bytes and entries that are an
`int`, and needed names that end in the string table. -/
structure Bounded (c : ElfClass) (bytes : Bytes) : Prop where
  size_le : c.sizeofEhdr ≤ bytes.length → (readTable c bytes).size ≤ intMax
  type : TableRead c bytes → (readTable c bytes).num = 0 ∨ 4 ≤ (readTable c bytes).entsize
  filesz : TableRead c bytes → (readTable c bytes).LastDynamic bytes i →
    (readTable c bytes).entsize * i + (c.posFilesz + c.word) ≤ (readTable c bytes).size
  count_le : SectionRead c bytes i → sectionCount c bytes i ≤ intMax
  terminated : SectionRead c bytes i →
    StrtabRead c bytes (sectionStop c bytes i) (readEntries c bytes i) →
    ∀ d ∈ neededEntries (readEntries c bytes i),
      Terminated (readStrtab c bytes (sectionStop c bytes i) (readEntries c bytes i)) d.val

/-- The entries from `DT_NULL` on change nothing: no library is needed there, and the string table
that they lead to, if they do, has the same names. -/
def Undisturbed (c : ElfClass) (bytes : Bytes) (pos : Nat) (ds : List Dyn) : Prop :=
  (lastValue dtStrtab ds ≠ 0 → lastValue dtStrsz ds ≤ c.maxSigned) ∧
    (StrtabRead c bytes pos ds → neededEntries (fromNull ds) = [] ∧
      ∀ d ∈ neededEntries (beforeNull ds),
        stringAt (readStrtab c bytes pos ds) d.val = stringAt (stringTable bytes ds) d.val) ∧
    (¬StrtabRead c bytes pos ds → neededEntries (beforeNull ds) = [])

/-! ## Reading from the file -/

variable {c : ElfClass} {bytes : Bytes} {f : OpenFile} {ds : List Dyn}

theorem fseek_content (c : ElfClass) (f : OpenFile) (off : Nat) :
    (f.fseek c off).content = f.content := by
  rw [OpenFile.fseek]
  split <;> rfl

theorem fseek_pos (c : ElfClass) (f : OpenFile) (off : Nat) :
    (f.fseek c off).pos = seek c f.pos off := by
  rw [OpenFile.fseek, seek]
  split <;> rfl

/-- All items are read if they are in the file. -/
theorem fread_count_eq_iff (f : OpenFile) (size n : Nat) :
    (f.fread size n).2.1 = n ↔ n = 0 ∨ size ≠ 0 ∧ f.pos + size * n ≤ f.content.length := by
  have hlen : (slice f.content f.pos (size * n)).length =
      min (size * n) (f.content.length - f.pos) := by
    rw [slice, List.length_take, List.length_drop]
  rw [OpenFile.fread, hlen]
  rcases Nat.eq_zero_or_pos size with rfl | hsize
  · simp [eq_comm]
  · have hle : min (size * n) (f.content.length - f.pos) / size ≤ n :=
      Nat.div_le_of_le_mul (Nat.min_le_left ..)
    have heq : min (size * n) (f.content.length - f.pos) / size = n ↔
        size * n ≤ f.content.length - f.pos := by
      rw [← hle.ge_iff_eq, Nat.le_div_iff_mul_le hsize, Nat.mul_comm n, Nat.le_min]
      exact and_iff_right (Nat.le_refl _)
    rw [heq]
    rcases Nat.eq_zero_or_pos n with rfl | hn
    · simp
    · have hpos := Nat.mul_pos hsize hn
      omega

theorem fread_length (h : (f.fread size n).2.1 = n) :
    (slice f.content f.pos (size * n)).length = size * n := by
  rcases (fread_count_eq_iff f size n).mp h with rfl | ⟨-, hle⟩
  · simp [slice]
  · exact length_slice hle

theorem readField_slice (hlen : (slice bytes start len).length = len) (h : pos + n ≤ len) :
    readField (slice bytes start len) pos n = some (field bytes (start + pos) n) := by
  rw [readField, if_pos (hlen.symm ▸ h), field_slice h]

/-! ## The program headers -/

theorem findDynamic_spec {phdr : Bytes} (h : ∀ i < n, entsize * i + 4 ≤ phdr.length) :
    ∃ r, findDynamic phdr entsize n = some r ∧
      (r = none → ∀ i < n, field phdr (entsize * i) 4 ≠ ptDynamic) ∧
      ∀ i, r = some i → i < n ∧ field phdr (entsize * i) 4 = ptDynamic ∧
        ∀ j < n, field phdr (entsize * j) 4 = ptDynamic → j ≤ i := by
  induction n with
  | zero => exact ⟨none, rfl, fun _ _ hi => absurd hi (Nat.not_lt_zero _), fun i hi => by cases hi⟩
  | succ n ih =>
    obtain ⟨r, hr, hnone, hsome⟩ := ih fun i hi => h i (Nat.lt_succ_of_lt hi)
    simp only [findDynamic, hr, readField, if_pos (h n (Nat.lt_succ_self n)), Option.bind_eq_bind,
      Option.bind_some]
    by_cases htype : field phdr (entsize * n) 4 = ptDynamic
    · rw [if_pos htype]
      refine ⟨some n, rfl, ?_, fun i hi => ?_⟩
      · exact fun hn => absurd hn (Option.some_ne_none n)
      · cases hi
        exact ⟨Nat.lt_succ_self n, htype, fun j hj _ => Nat.le_of_lt_succ hj⟩
    · rw [if_neg htype]
      refine ⟨r, rfl, fun hr' i hi => ?_, fun i hi => ?_⟩
      · rcases Nat.lt_succ_iff_lt_or_eq.mp hi with hi | rfl
        · exact hnone hr' i hi
        · exact htype
      · obtain ⟨hlt, hdyn, hlast⟩ := hsome i hi
        refine ⟨Nat.lt_succ_of_lt hlt, hdyn, fun j hj hj' => ?_⟩
        rcases Nat.lt_succ_iff_lt_or_eq.mp hj with hj | rfl
        · exact hlast j hj hj'
        · exact absurd hj' htype

/-- The type of the last entry is read behind the table if the entries are too short. -/
theorem findDynamic_eq_none {phdr : Bytes} (h : phdr.length < entsize * n + 4) :
    findDynamic phdr entsize (n + 1) = none := by
  rw [findDynamic]
  cases findDynamic phdr entsize n with
  | none => rfl
  | some r =>
    rw [readField, if_neg (Nat.not_le_of_lt h)]
    rfl

/-- The search in the table that has been read. -/
theorem findDynamic_slice {t : PhdrTable} (hlen : (slice bytes t.start t.size).length = t.size)
    (h : t.num = 0 ∨ 4 ≤ t.entsize) :
    (findDynamic (slice bytes t.start t.size) t.entsize t.num = some none ∧
      ∀ i, ¬t.IsDynamic bytes i) ∨
    ∃ i, findDynamic (slice bytes t.start t.size) t.entsize t.num = some (some i) ∧
      t.LastDynamic bytes i := by
  have hentry : ∀ i < t.num, t.entsize * i + 4 ≤ t.size := fun i hi => by
    have hle := PhdrTable.entry_le hi
    omega
  have htype : ∀ i < t.num, field (slice bytes t.start t.size) (t.entsize * i) 4 = t.type bytes i :=
    fun i hi => field_slice (hentry i hi)
  obtain ⟨r, hr, hnone, hsome⟩ := findDynamic_spec fun i hi => hlen.symm ▸ hentry i hi
  cases r with
  | none => exact .inl ⟨hr, fun i hi => hnone rfl i hi.1 ((htype i hi.1).trans hi.2)⟩
  | some i =>
    obtain ⟨hlt, hdyn, hlast⟩ := hsome i rfl
    exact .inr ⟨i, hr, ⟨hlt, htype i hlt ▸ hdyn⟩, fun j hj =>
      hlast j hj.1 ((htype j hj.1).trans hj.2)⟩

/-- In a table of shorter entries the search ends behind the table. -/
theorem findDynamic_slice_eq_none {t : PhdrTable}
    (hlen : (slice bytes t.start t.size).length = t.size) (h : ¬(t.num = 0 ∨ 4 ≤ t.entsize)) :
    findDynamic (slice bytes t.start t.size) t.entsize t.num = none := by
  obtain ⟨hne, hlt⟩ := not_or.mp h
  obtain ⟨n, hn⟩ := Nat.exists_eq_succ_of_ne_zero hne
  have hsize : t.size = t.entsize * n + t.entsize := by rw [PhdrTable.size, hn, Nat.mul_succ]
  rw [hn]
  exact findDynamic_eq_none (by omega)

/-! ## The string table -/

theorem findStrtab_eq (ds : List Dyn) :
    findStrtab ds = (lastValue dtStrtab ds, lastValue dtStrsz ds) := by
  have hfold : ∀ (ds : List Dyn) (a b : Nat),
      ds.foldl (fun s d => if d.tag = dtStrtab then (d.val, s.2)
        else if d.tag = dtStrsz then (s.1, d.val) else s) (a, b) =
      (ds.foldl (fun v d => if d.tag = dtStrtab then d.val else v) a,
        ds.foldl (fun v d => if d.tag = dtStrsz then d.val else v) b) := by
    intro ds
    induction ds with
    | nil => exact fun _ _ => rfl
    | cons d ds ih =>
      intro a b
      simp only [List.foldl_cons]
      by_cases hstrtab : d.tag = dtStrtab
      · have hne : d.tag ≠ dtStrsz := by
          rw [hstrtab]
          decide
        simp only [if_pos hstrtab, if_neg hne, ih]
      · by_cases hstrsz : d.tag = dtStrsz
        · simp only [if_neg hstrtab, if_pos hstrsz, ih]
        · simp only [if_neg hstrtab, if_neg hstrsz, ih]
  exact hfold ds 0 0

theorem mapM_readString (strtab : Bytes) (ds : List Dyn) :
    (ds.mapM fun d => readString strtab d.val) =
      if ∀ d ∈ ds, Terminated strtab d.val then some (ds.map fun d => stringAt strtab d.val)
      else none := by
  induction ds with
  | nil => simp
  | cons d ds ih =>
    rw [List.mapM_cons, ih]
    simp only [readString, List.forall_mem_cons]
    by_cases hd : Terminated strtab d.val
    · by_cases hds : ∀ d ∈ ds, Terminated strtab d.val
      · rw [if_pos hd, if_pos hds, if_pos ⟨hd, hds⟩]
        rfl
      · rw [if_pos hd, if_neg hds, if_neg (not_and_of_not_right _ hds)]
        rfl
    · rw [if_neg hd, if_neg (not_and_of_not_left _ hd)]
      rfl

theorem readNames_eq (c : ElfClass) (ds : List Dyn) (f : OpenFile) : readNames c ds f =
    if lastValue dtStrtab ds = 0 ∨ lastValue dtStrsz ds = 0 then some (.error .noStrtab)
    else if c.maxSigned < lastValue dtStrsz ds then some (.error .lengthError)
    else if ¬StrtabRead c f.content f.pos ds then some (.error .readStrtab)
    else if ∀ d ∈ neededEntries ds, Terminated (readStrtab c f.content f.pos ds) d.val then
      some (.ok ((neededEntries ds).map fun d =>
        stringAt (readStrtab c f.content f.pos ds) d.val))
    else none := by
  simp only [readNames, findStrtab_eq]
  split
  · rfl
  next hne =>
    split
    · rfl
    next hle =>
      rw [not_or] at hne
      have hread : ((f.fseek c (lastValue dtStrtab ds)).fread 1 (lastValue dtStrsz ds)).2.1 =
          lastValue dtStrsz ds ↔ StrtabRead c f.content f.pos ds := by
        rw [fread_count_eq_iff, fseek_content, fseek_pos, Nat.one_mul, or_iff_right hne.2,
          and_iff_right Nat.one_ne_zero, StrtabRead, and_iff_right hne.1, and_iff_right hne.2,
          and_iff_right (Nat.le_of_not_lt hle)]
      have hbuf : ((f.fseek c (lastValue dtStrtab ds)).fread 1 (lastValue dtStrsz ds)).1 =
          readStrtab c f.content f.pos ds := by
        rw [OpenFile.fread, fseek_content, fseek_pos, Nat.one_mul]
        rfl
      simp only [ne_eq, hread, hbuf, mapM_readString]
      split
      · rfl
      · split <;> rfl

/-- The names are read if those of the needed libraries end in the string table. -/
theorem readNames_defined : (∃ r, readNames c ds f = some r) ↔
    (StrtabRead c f.content f.pos ds →
      ∀ d ∈ neededEntries ds, Terminated (readStrtab c f.content f.pos ds) d.val) := by
  rw [readNames_eq]
  split
  next h => exact iff_of_true ⟨_, rfl⟩ fun hread => absurd h (not_or.mpr ⟨hread.1, hread.2.1⟩)
  · split
    next h => exact iff_of_true ⟨_, rfl⟩ fun hread => absurd h (Nat.not_lt_of_le hread.2.2.1)
    · split
      next h => exact iff_of_true ⟨_, rfl⟩ fun hread => absurd hread h
      next h =>
        split
        next hall => exact iff_of_true ⟨_, rfl⟩ fun _ => hall
        next hall =>
          refine iff_of_false (fun ⟨r, hr⟩ => by cases hr) fun hread => hall (hread ?_)
          exact not_not.mp h

theorem neededEntries_eq (ds : List Dyn) :
    neededEntries ds = neededEntries (beforeNull ds) ++ neededEntries (fromNull ds) := by
  rw [neededEntries, neededEntries, neededEntries, ← List.filter_append, beforeNull_append_fromNull]

theorem undisturbed_of_not_read (hread : ¬StrtabRead c bytes pos ds)
    (hle : lastValue dtStrtab ds ≠ 0 → lastValue dtStrsz ds ≤ c.maxSigned) :
    Undisturbed c bytes pos ds ↔ neededNames bytes ds = [] :=
  ⟨fun h => List.map_eq_nil_iff.mpr (h.2.2 hread),
    fun h => ⟨hle, fun hr => absurd hr hread, fun _ => List.map_eq_nil_iff.mp h⟩⟩

/-- They are those in front of `DT_NULL` if the other entries change nothing. -/
theorem readNames_returned (h : readNames c ds f = some r) :
    returned r = some (neededNames f.content ds) ↔ Undisturbed c f.content f.pos ds := by
  have hsome : ∀ {names : List Bytes}, some [] = some names ↔ names = [] :=
    Option.some_inj.trans eq_comm
  rw [readNames_eq] at h
  split at h
  next hzero =>
    cases h
    refine hsome.trans (undisturbed_of_not_read ?_ fun hne => ?_).symm
    · exact fun hread => absurd hzero (not_or.mpr ⟨hread.1, hread.2.1⟩)
    · rw [hzero.resolve_left hne]
      exact Nat.zero_le _
  next hzero =>
    split at h
    next hlt =>
      cases h
      rw [not_or] at hzero
      exact iff_of_false (fun h => by cases h) fun h => Nat.not_le_of_lt hlt (h.1 hzero.1)
    next hle =>
      split at h
      next hread =>
        cases h
        exact hsome.trans (undisturbed_of_not_read hread fun _ => Nat.le_of_not_lt hle).symm
      next hread =>
        rw [not_not] at hread
        split at h
        · cases h
          rw [returned, Option.some_inj, neededNames, neededEntries_eq, List.map_append]
          constructor
          · intro hnames
            have hlen := congrArg List.length hnames
            rw [List.length_append, List.length_map, List.length_map, List.length_map] at hlen
            have hnil : neededEntries (fromNull ds) = [] := List.length_eq_zero_iff.mp (by omega)
            rw [hnil, List.map_nil, List.append_nil] at hnames
            exact ⟨fun _ => hread.2.2.1, fun _ => ⟨hnil, List.map_inj_left.mp hnames⟩,
              fun hnot => absurd hread hnot⟩
          · intro hsame
            obtain ⟨hnil, heq⟩ := hsame.2.1 hread
            rw [hnil, List.map_nil, List.append_nil]
            exact List.map_congr_left heq
        · cases h

/-! ## The dynamic section and the program headers -/

theorem readDynamic_eq (c : ElfClass) (offset filesz : Nat) (f : OpenFile) :
    readDynamic c offset filesz f =
      if ¬(filesz / c.sizeofDyn = 0 ∨ seek c f.pos offset + c.sizeofDyn * (filesz / c.sizeofDyn) ≤
          f.content.length) then some (.error .readDynamic)
      else if intMax < filesz / c.sizeofDyn then none
      else readNames c (dynamics c f.content (seek c f.pos offset) (filesz / c.sizeofDyn))
        ⟨f.content, seek c f.pos offset + c.sizeofDyn * (filesz / c.sizeofDyn)⟩ := by
  have hread := fread_count_eq_iff (f.fseek c offset) c.sizeofDyn (filesz / c.sizeofDyn)
  rw [fseek_content, fseek_pos, and_iff_right (Nat.ne_of_gt c.sizeofDyn_pos)] at hread
  simp only [readDynamic, ne_eq, hread]
  split
  · rfl
  next h =>
    have hlen := fread_length (hread.mpr (not_not.mp h))
    rw [fseek_content, fseek_pos] at hlen
    simp only [OpenFile.fread, fseek_content, fseek_pos, hlen, dynamics_slice]

/-- What is read after the entry `i` of the program headers has been found. -/
def readSection (c : ElfClass) (bytes : Bytes) (i : Nat) :
    Option (Except DependencyError (List Bytes)) :=
  if ¬(sectionCount c bytes i = 0 ∨ sectionStop c bytes i ≤ bytes.length) then
    some (.error .readDynamic)
  else if intMax < sectionCount c bytes i then none
  else readNames c (readEntries c bytes i) ⟨bytes, sectionStop c bytes i⟩

theorem readPhdrs_eq (hheader : c.sizeofEhdr ≤ bytes.length) :
    readPhdrs c (Ehdr.ofBytes c bytes) ⟨bytes, c.sizeofEhdr⟩ =
      if intMax < (readTable c bytes).size then none
      else if ¬TableRead c bytes then some (.error .readPhnum)
      else
        let t := readTable c bytes
        let phdr := slice bytes t.start t.size
        (findDynamic phdr t.entsize t.num).bind fun
        | none => some (.error .noDynamic)
        | some i => (readField phdr (t.entsize * i + c.posFilesz) c.word).bind fun filesz =>
          (readField phdr (t.entsize * i + c.posOffset) c.word).bind fun offset =>
            readDynamic c offset filesz ⟨bytes, t.stop⟩ := by
  have hread := fread_count_eq_iff ((OpenFile.mk bytes c.sizeofEhdr).fseek c
    (Ehdr.ofBytes c bytes).phoff) (Ehdr.ofBytes c bytes).phentsize (Ehdr.ofBytes c bytes).phnum
  rw [fseek_content, fseek_pos] at hread
  have htable : TableRead c bytes ↔ _ := (and_iff_right hheader).trans hread.symm
  have hsize : (Ehdr.ofBytes c bytes).phentsize * (Ehdr.ofBytes c bytes).phnum =
      (readTable c bytes).size := rfl
  simp only [readPhdrs, hsize, ne_eq, htable]
  split
  · rfl
  · split
    · rfl
    next h =>
      have hlen := fread_length (not_not.mp h)
      rw [fseek_content, fseek_pos, hsize] at hlen
      simp only [OpenFile.fread, fseek_content, fseek_pos, hsize, hlen]
      rfl

theorem getModDependencies_eq (c : ElfClass) (bytes : Bytes) :
    getModDependencies c (some bytes) =
      if ¬c.sizeofEhdr ≤ bytes.length then some (.error .readHeader)
      else readPhdrs c (Ehdr.ofBytes c bytes) ⟨bytes, c.sizeofEhdr⟩ := by
  have hread := fread_count_eq_iff ⟨bytes, 0⟩ c.sizeofEhdr 1
  have hsize : c.sizeofEhdr ≠ 0 := by cases c <;> decide
  simp only [Nat.one_ne_zero, false_or, and_iff_right hsize, Nat.zero_add, Nat.mul_one] at hread
  simp only [getModDependencies, ne_eq, hread]
  split
  · rfl
  next h =>
    have hlen := fread_length (hread.mpr (not_not.mp h))
    rw [Nat.mul_one] at hlen
    simp only [OpenFile.fread, Nat.mul_one, hlen, Nat.zero_add, Ehdr.ofBytes_slice]

/-- The ways that the reader can go until it comes to the dynamic section. -/
inductive Course (c : ElfClass) (bytes : Bytes) :
    Option (Except DependencyError (List Bytes)) → Prop
  | noHeader : ¬c.sizeofEhdr ≤ bytes.length → Course c bytes (some (.error .readHeader))
  | overflow : c.sizeofEhdr ≤ bytes.length → intMax < (readTable c bytes).size →
      Course c bytes none
  | noTable : (readTable c bytes).size ≤ intMax → ¬TableRead c bytes →
      Course c bytes (some (.error .readPhnum))
  | shortEntries : TableRead c bytes →
      ¬((readTable c bytes).num = 0 ∨ 4 ≤ (readTable c bytes).entsize) → Course c bytes none
  | noDynamic : (readTable c bytes).size ≤ intMax →
      (readTable c bytes).num = 0 ∨ 4 ≤ (readTable c bytes).entsize →
      (∀ i, ¬(readTable c bytes).IsDynamic bytes i) → Course c bytes (some (.error .noDynamic))
  | shortDynamic : TableRead c bytes → (readTable c bytes).LastDynamic bytes i →
      ¬(readTable c bytes).entsize * i + (c.posFilesz + c.word) ≤ (readTable c bytes).size →
      Course c bytes none
  | dynamic : TableRead c bytes → (readTable c bytes).size ≤ intMax →
      (readTable c bytes).num = 0 ∨ 4 ≤ (readTable c bytes).entsize →
      (readTable c bytes).LastDynamic bytes i →
      (readTable c bytes).entsize * i + (c.posFilesz + c.word) ≤ (readTable c bytes).size →
      Course c bytes (readSection c bytes i)

theorem slice_table (h : TableRead c bytes) :
    (slice bytes (readTable c bytes).start (readTable c bytes).size).length =
      (readTable c bytes).size := by
  rcases h.2 with h0 | ⟨-, hle⟩
  · simp [slice, PhdrTable.size, h0]
  · exact length_slice hle

theorem getModDependencies_course (c : ElfClass) (bytes : Bytes) :
    Course c bytes (getModDependencies c (some bytes)) := by
  rw [getModDependencies_eq]
  split
  next h => exact .noHeader h
  next h =>
    rw [not_not] at h
    rw [readPhdrs_eq h]
    split
    next hlt => exact .overflow h hlt
    next hle =>
      rw [Nat.not_lt] at hle
      split
      next hread => exact .noTable hle hread
      next hread =>
        rw [not_not] at hread
        have hlen := slice_table hread
        by_cases htype : (readTable c bytes).num = 0 ∨ 4 ≤ (readTable c bytes).entsize
        · obtain ⟨hfind, hnone⟩ | ⟨i, hfind, hlast⟩ := findDynamic_slice hlen htype
          · simp only [hfind, Option.bind_some]
            exact .noDynamic hle htype hnone
          · simp only [hfind, Option.bind_some]
            by_cases hfits : (readTable c bytes).entsize * i + (c.posFilesz + c.word) ≤
                (readTable c bytes).size
            · have hoffset : (readTable c bytes).entsize * i + c.posOffset + c.word ≤
                  (readTable c bytes).size := by
                have : c.posOffset ≤ c.posFilesz := by cases c <;> decide
                omega
              rw [readField_slice hlen (by omega), readField_slice hlen hoffset, Option.bind_some,
                Option.bind_some, readDynamic_eq]
              exact .dynamic hread hle htype hlast hfits
            · rw [readField, if_neg (by omega), Option.bind_none]
              exact .shortDynamic hread hlast hfits
        · simp only [findDynamic_slice_eq_none hlen htype, Option.bind_none]
          exact .shortEntries hread htype

/-! ## Well-formed files -/

theorem seek_of_le (h : off ≤ c.maxSigned) : seek c pos off = off := if_pos h

/-- In a well-formed file everything is read where it is. -/
theorem readTable_of_wellFormed (h : WellFormed c bytes) :
    readTable c bytes = PhdrTable.ofBytes c bytes := by
  have hle := Nat.le_trans (Nat.le_add_right ..) (Nat.le_trans h.phdrs h.length_le)
  rw [readTable, seek_of_le hle]

theorem tableRead_of_wellFormed (h : WellFormed c bytes) : TableRead c bytes := by
  have hsize : c.sizeofPhdr ≠ 0 := by cases c <;> decide
  refine ⟨h.header, .inr ?_⟩
  rw [readTable_of_wellFormed h]
  exact ⟨h.phentsize ▸ hsize, h.phdrs⟩

theorem lastDynamic_iff (h : WellFormed c bytes) :
    (readTable c bytes).LastDynamic bytes i ↔ (PhdrTable.ofBytes c bytes).IsDynamic bytes i := by
  rw [readTable_of_wellFormed h]
  exact ⟨fun hlast => hlast.1, fun hi => ⟨hi, fun j hj => Nat.le_of_eq (h.unique hj hi)⟩⟩

theorem readEntries_of_wellFormed (h : WellFormed c bytes)
    (hi : (PhdrTable.ofBytes c bytes).IsDynamic bytes i) :
    readEntries c bytes i = dynamicSection c bytes i := by
  have hle := Nat.le_trans (Nat.le_add_right ..) (Nat.le_trans (h.dynamic hi) h.length_le)
  rw [readEntries, sectionStart, sectionCount, readTable_of_wellFormed h, seek_of_le hle]
  rfl

theorem sectionRead_of_wellFormed (h : WellFormed c bytes)
    (hi : (PhdrTable.ofBytes c bytes).IsDynamic bytes i) : SectionRead c bytes i := by
  have hle := Nat.le_trans (Nat.le_add_right ..) (Nat.le_trans (h.dynamic hi) h.length_le)
  refine ⟨tableRead_of_wellFormed h, (lastDynamic_iff h).mpr hi, .inr ?_⟩
  rw [sectionStop, sectionStart, sectionCount, readTable_of_wellFormed h, seek_of_le hle]
  exact Nat.le_trans (Nat.add_le_add_left (Nat.mul_div_le _ _) _) (h.dynamic hi)

/-! ## When the reader is right -/

theorem readSection_defined (h : TableRead c bytes)
    (hlast : (readTable c bytes).LastDynamic bytes i) :
    (∃ r, readSection c bytes i = some r) ↔ (SectionRead c bytes i →
      sectionCount c bytes i ≤ intMax ∧
        (StrtabRead c bytes (sectionStop c bytes i) (readEntries c bytes i) →
          ∀ d ∈ neededEntries (readEntries c bytes i),
            Terminated (readStrtab c bytes (sectionStop c bytes i) (readEntries c bytes i))
              d.val)) := by
  rw [readSection]
  split
  next hno => exact iff_of_true ⟨_, rfl⟩ fun hsec => absurd hsec.2.2 hno
  next hread =>
    have hsec : SectionRead c bytes i := ⟨h, hlast, not_not.mp hread⟩
    rw [forall_prop_of_true hsec]
    split
    next hlt =>
      exact iff_of_false (fun ⟨_, hr⟩ => by cases hr) fun hle => Nat.not_le_of_lt hlt hle.1
    next hle => rw [and_iff_right (Nat.le_of_not_lt hle), readNames_defined]

/-- The reader stays inside its buffers. -/
theorem defined_iff (c : ElfClass) (bytes : Bytes) :
    (∃ r, getModDependencies c (some bytes) = some r) ↔ Bounded c bytes := by
  have hcourse := getModDependencies_course c bytes
  generalize getModDependencies c (some bytes) = result at hcourse
  cases hcourse with
  | noHeader hno =>
    refine iff_of_true ⟨_, rfl⟩ ⟨fun h => absurd h hno, fun h => absurd h.1 hno,
      fun h => absurd h.1 hno, fun h => absurd h.1.1 hno, fun h => absurd h.1.1 hno⟩
  | overflow h hlt =>
    exact iff_of_false (fun ⟨_, hr⟩ => by cases hr) fun hb => Nat.not_le_of_lt hlt (hb.size_le h)
  | noTable hle hno =>
    exact iff_of_true ⟨_, rfl⟩ ⟨fun _ => hle, fun h => absurd h hno, fun h => absurd h hno,
      fun h => absurd h.1 hno, fun h => absurd h.1 hno⟩
  | shortEntries h htype =>
    exact iff_of_false (fun ⟨_, hr⟩ => by cases hr) fun hb => htype (hb.type h)
  | noDynamic hle htype hno =>
    exact iff_of_true ⟨_, rfl⟩ ⟨fun _ => hle, fun _ => htype, fun _ h => absurd h.1 (hno _),
      fun h => absurd h.2.1.1 (hno _), fun h => absurd h.2.1.1 (hno _)⟩
  | shortDynamic h hlast hfits =>
    exact iff_of_false (fun ⟨_, hr⟩ => by cases hr) fun hb => hfits (hb.filesz h hlast)
  | @dynamic i h hle htype hlast hfits =>
    have huniq : ∀ {j}, SectionRead c bytes j → j = i := fun hj => hj.2.1.unique hlast
    rw [readSection_defined h hlast]
    constructor
    · intro hsec
      refine ⟨fun _ => hle, fun _ => htype, fun {j} _ hj => ?_, fun {j} hj => ?_, fun {j} hj => ?_⟩
      · exact hj.unique hlast ▸ hfits
      · exact huniq hj ▸ (hsec (huniq hj ▸ hj)).1
      · exact huniq hj ▸ (hsec (huniq hj ▸ hj)).2
    · exact fun hb hsec => ⟨hb.count_le hsec, hb.terminated hsec⟩

theorem getModDependencies_of_wellFormed (h : WellFormed c bytes)
    (hr : getModDependencies c (some bytes) = some r) :
    (∀ i, (PhdrTable.ofBytes c bytes).IsDynamic bytes i → readSection c bytes i = some r) ∧
      ((∀ i, ¬(PhdrTable.ofBytes c bytes).IsDynamic bytes i) → r = .error .noDynamic) := by
  have hcourse := hr ▸ getModDependencies_course c bytes
  generalize hresult : some r = result at hcourse
  cases hcourse with
  | noHeader hno => exact absurd h.header hno
  | overflow | shortEntries | shortDynamic => cases hresult
  | noTable _ hno => exact absurd (tableRead_of_wellFormed h) hno
  | noDynamic _ _ hno =>
    rw [readTable_of_wellFormed h] at hno
    exact ⟨fun i hi => absurd hi (hno i), fun _ => by cases hresult; rfl⟩
  | dynamic _ _ _ hlast _ =>
    refine ⟨fun j hj => ?_, fun hno => absurd ((lastDynamic_iff h).mp hlast) (hno _)⟩
    rw [((lastDynamic_iff h).mpr hj).unique hlast]

theorem readSection_returned (h : WellFormed c bytes)
    (hi : (PhdrTable.ofBytes c bytes).IsDynamic bytes i) (hr : readSection c bytes i = some r) :
    returned r = some (neededNames bytes (dynamicSection c bytes i)) ↔
      Undisturbed c bytes (sectionStop c bytes i) (dynamicSection c bytes i) := by
  rw [readSection, if_neg (not_not_intro (sectionRead_of_wellFormed h hi).2.2),
    readEntries_of_wellFormed h hi] at hr
  split at hr
  · cases hr
  · exact readNames_returned hr

theorem readsRight_of_bounded (hbounded : Bounded c bytes)
    (hundisturbed : WellFormed c bytes → ∀ i, (PhdrTable.ofBytes c bytes).IsDynamic bytes i →
      Undisturbed c bytes (sectionStop c bytes i) (dynamicSection c bytes i)) :
    ReadsRight c bytes := by
  obtain ⟨r, hr⟩ := (defined_iff c bytes).mpr hbounded
  refine ⟨r, hr, fun h => ⟨fun i hi => ?_, fun hno => ?_⟩⟩
  · have hsection := (getModDependencies_of_wellFormed h hr).1 i hi
    exact (readSection_returned h hi hsection).mpr (hundisturbed h i hi)
  · rw [(getModDependencies_of_wellFormed h hr).2 hno]
    rfl

theorem neededEntries_fromNull (h : ∀ d ∈ fromNull ds, d.tag = dtNull) :
    neededEntries (fromNull ds) = [] := by
  refine List.filter_eq_nil_iff.mpr fun d hd => ?_
  rw [h d hd]
  decide

theorem strtabRead_of_null (h : WellFormed c bytes) (hds : WellFormedSection c bytes ds)
    (hnull : ∀ d ∈ fromNull ds, d.tag = dtNull) (hne : lastValue dtStrsz ds ≠ 0) :
    StrtabRead c bytes pos ds := by
  have hstop := hds.strtab_stop
  have hstart := hds.strtab_start
  rw [lastValue_beforeNull hnull (by decide)] at hstart hstop
  rw [lastValue_beforeNull hnull (by decide)] at hstop
  have hpos : 0 < c.sizeofEhdr := by cases c <;> decide
  have hmax := Nat.le_trans hstop h.length_le
  rw [StrtabRead, seek_of_le (Nat.le_trans (Nat.le_add_right ..) hmax)]
  exact ⟨by omega, hne, Nat.le_trans (Nat.le_add_left ..) hmax, hstop⟩

theorem readStrtab_of_null (h : WellFormed c bytes) (hds : WellFormedSection c bytes ds)
    (hnull : ∀ d ∈ fromNull ds, d.tag = dtNull) :
    readStrtab c bytes pos ds = stringTable bytes ds := by
  have hmax := Nat.le_trans (Nat.le_add_right ..) (Nat.le_trans hds.strtab_stop h.length_le)
  rw [readStrtab, stringTable, lastValue_beforeNull hnull (by decide),
    lastValue_beforeNull hnull (by decide), seek_of_le]
  have hoff : lastValue dtStrtab (beforeNull ds) = lastValue dtStrtab ds :=
    lastValue_beforeNull hnull (by decide)
  exact hoff ▸ hmax

theorem undisturbed_of_null (h : WellFormed c bytes) (hds : WellFormedSection c bytes ds)
    (hnull : ∀ d ∈ fromNull ds, d.tag = dtNull) : Undisturbed c bytes pos ds := by
  refine ⟨fun _ => ?_, fun _ => ⟨neededEntries_fromNull hnull, fun d _ => ?_⟩, fun hno => ?_⟩
  · rw [← lastValue_beforeNull hnull (by decide)]
    exact Nat.le_trans (Nat.le_add_left ..) (Nat.le_trans hds.strtab_stop h.length_le)
  · rw [readStrtab_of_null h hds hnull]
  · -- the table is empty, and no name ends in it
    refine List.eq_nil_iff_forall_not_mem.mpr fun d hd => ?_
    have hsize : lastValue dtStrsz ds = 0 := not_not.mp fun hne =>
      hno (strtabRead_of_null h hds hnull hne)
    have hnone : lastValue dtStrsz (beforeNull ds) = 0 :=
      (lastValue_beforeNull hnull (by decide)).trans hsize
    have hterm := hds.terminated d hd
    rw [stringTable, hnone, slice, List.take_zero, Terminated, List.drop_nil] at hterm
    exact List.not_mem_nil hterm

/-- **Files as linkers write them**, where the dynamic section is filled up with `DT_NULL`, are read
as they should be. -/
theorem readsRight_of_null (h : WellFormed c bytes)
    (hlen : ∀ i, (PhdrTable.ofBytes c bytes).IsDynamic bytes i →
      (dynamicSection c bytes i).length ≤ intMax)
    (hnull : ∀ i, (PhdrTable.ofBytes c bytes).IsDynamic bytes i →
      ∀ d ∈ fromNull (dynamicSection c bytes i), d.tag = dtNull) : ReadsRight c bytes := by
  have htable := readTable_of_wellFormed h
  have hsize : c.posFilesz + c.word ≤ c.sizeofPhdr ∧ 4 ≤ c.sizeofPhdr ∧
      c.sizeofPhdr * 0xFFFF ≤ intMax := by
    cases c <;> decide
  refine readsRight_of_bounded ⟨fun _ => ?_, fun _ => .inr ?_, fun {i} _ hlast => ?_,
    fun {i} hsec => ?_, fun {i} hsec _ d hd => ?_⟩
    fun _ i hi => undisturbed_of_null h (h.wellFormedSection hi) (hnull i hi)
  · rw [htable, PhdrTable.size, h.phentsize]
    exact Nat.le_trans (Nat.mul_le_mul_left _ (PhdrTable.num_le c bytes)) hsize.2.2
  · rw [htable, h.phentsize]
    exact hsize.2.1
  · have hle := PhdrTable.entry_le hlast.1.1
    rw [htable] at hle ⊢
    have := h.phentsize
    omega
  · have hi := (lastDynamic_iff h).mp hsec.2.1
    have hcount := hlen i hi
    rwa [← readEntries_of_wellFormed h hi, readEntries, length_dynamics] at hcount
  · have hi := (lastDynamic_iff h).mp hsec.2.1
    rw [readEntries_of_wellFormed h hi] at hd ⊢
    rw [neededEntries_eq, neededEntries_fromNull (hnull i hi), List.append_nil] at hd
    rw [readStrtab_of_null h (h.wellFormedSection hi) (hnull i hi)]
    exact (h.wellFormedSection hi).terminated d hd

end McpeLauncher.ModLoader
