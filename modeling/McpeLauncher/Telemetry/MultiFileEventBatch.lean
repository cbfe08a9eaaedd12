import Mathlib.Data.List.Sort
import Mathlib.Data.List.TakeWhile
import McpeLauncher.Telemetry.FileEventBatch

/-!
# The batch in several files

`cll::MultiFileEventBatch`: numbered files in a directory, filled and emptied in the order of
their numbers. The newest file takes additions; when it is full it is finalized and a file with
the next number is opened. Uploads are read from the oldest file, which is opened lazily from
`oldBatches`, and from the newest one if there is no other.

`Repr` relates the object to the events of each of its files, and each operation has a lemma about
it. The numbers are unbounded integers here; they start at 0 and grow by one with each new file.
-/

namespace McpeLauncher.Telemetry
open ByteLines PosixFiles

/-! ## File names -/

/-- `ss << id`. -/
def decimal : Int → List Char
  | .ofNat n => Nat.toDigits 10 n
  | .negSucc n => '-' :: Nat.toDigits 10 (n + 1)

def isSpace (c : Char) : Bool := c ∈ [' ', '\t', '\n', '\x0b', '\x0c', '\r']

/-- The optional sign of a number and the text after it. -/
def splitSign : List Char → Int × List Char
  | '-' :: s => (-1, s)
  | '+' :: s => (1, s)
  | s => (1, s)

/-- `std::stoull`, its result read as a signed number: blanks, a sign and digits, followed by
anything. -/
def stoull (s : List Char) : Option Int :=
  let (sign, s) := splitSign (s.dropWhile isSpace)
  let digits := s.takeWhile Char.isDigit
  if digits = [] then none else some (sign * Nat.ofDigitChars 10 digits 0)

/-- A batch of numbered files: the directory, the parts of a file name around the number, the
limits of a file, and the open files. -/
structure MultiFileEventBatch where
  dir : Dir FileName
  filePrefix : FileName
  fileSuffix : FileName
  fileMaxEvents : Nat
  fileMaxSize : Nat
  oldestBatch : Option FileEventBatch
  oldBatches : List Int
  newestBatch : FileEventBatch
  newestBatchId : Int

/-- `MultiFileEventBatch::EventList`. -/
structure MultiFileEventList where
  wrapped : VectorBatchedEventList
  hasMoreFiles : Bool
  deriving DecidableEq

/-- The number in the name of a directory entry, for an entry that `getBatches` takes. -/
def batchId (pre suf name : FileName) : Option Int :=
  if name.length < pre.length + suf.length ∨ name.take pre.length ≠ pre ∨
      name.drop (name.length - suf.length) ≠ suf then none
  else stoull ((name.drop pre.length).take (name.length - pre.length - suf.length))

def getBatches (dir : Dir FileName) (pre suf : FileName) : List Int :=
  (dir.keys.filterMap (batchId pre suf)).insertionSort (· ≤ ·)

namespace MultiFileEventBatch

def getBatchFileName (b : MultiFileEventBatch) (id : Int) : FileName :=
  b.filePrefix ++ decimal id ++ b.fileSuffix

def openBatch (b : MultiFileEventBatch) (id : Int) (write : Bool) :
    Dir FileName × FileEventBatch :=
  let (dir, ev) := FileEventBatch.new b.dir (b.getBatchFileName id)
  let ev := ev.setLimit b.fileMaxEvents b.fileMaxSize
  (dir, if write then ev else ev.setFinalized)

/-- Opening the newest file of a batch whose other fields are set. -/
def openNewest (b : MultiFileEventBatch) (id : Int) : MultiFileEventBatch :=
  let (dir, newest) := b.openBatch id true
  { b with dir, newestBatch := newest, newestBatchId := id }

/-- The constructor. The last file found becomes the newest, the file 0 if there is none. -/
def new (dir : Dir FileName) (filePrefix fileSuffix : FileName) (fileMaxEvents fileMaxSize : Nat) :
    MultiFileEventBatch :=
  let batches := getBatches dir filePrefix fileSuffix
  let closed : FileEventBatch :=
    { path := [], fd := none, fileSize := 0, eventCount := 0, streamAtEnd := false,
      finalized := false, maxCount := 0, maxSize := 0 }
  let b : MultiFileEventBatch :=
    { dir, filePrefix, fileSuffix, fileMaxEvents, fileMaxSize, oldestBatch := none,
      oldBatches := batches.dropLast, newestBatch := closed, newestBatchId := 0 }
  b.openNewest (batches.getLast?.getD 0)

/-- The loop of `checkOldestBatch` over `oldBatches`: files without events are deleted. -/
def checkOldestLoop (b : MultiFileEventBatch) : List Int → MultiFileEventBatch
  | [] => { b with oldBatches := [] }
  | fr :: rest =>
    let (dir, oldest) := b.openBatch fr false
    if oldest.hasEvents then { b with dir, oldBatches := rest, oldestBatch := some oldest }
    else checkOldestLoop { b with dir := dir.erase oldest.path } rest

def checkOldestBatch (b : MultiFileEventBatch) : MultiFileEventBatch :=
  if b.oldestBatch.isNone then b.checkOldestLoop b.oldBatches else b

/-- The part of `addEvent` that finalizes the newest file and opens the next one. -/
def rotate (b : MultiFileEventBatch) : MultiFileEventBatch :=
  let newest := b.newestBatch.setFinalized
  let b :=
    if b.oldestBatch.isNone && b.oldBatches.isEmpty then { b with oldestBatch := some newest }
    else { b with oldBatches := b.oldBatches ++ [b.newestBatchId] }
  b.openNewest (b.newestBatchId + 1)

def addEvent (b : MultiFileEventBatch) (rawData : Event) : Bool × MultiFileEventBatch :=
  let data := rawData.record
  let b := if b.newestBatch.canAddEvent data.length then b else b.rotate
  let (ok, dir, newest) := FileEventBatch.addEvent b.dir b.newestBatch data
  (ok, { b with dir, newestBatch := newest })

/-- The part of `getEventsForUpload` after `checkOldestBatch`. -/
def readUpload (b : MultiFileEventBatch) (maxCount maxSize : Nat) :
    Option MultiFileEventList × MultiFileEventBatch :=
  match b.oldestBatch with
  | some oldest =>
    let (ret, oldest) := FileEventBatch.getEventsForUpload b.dir oldest maxCount maxSize
    (ret.map (⟨·, true⟩), { b with oldestBatch := some oldest })
  | none =>
    let (ret, newest) := FileEventBatch.getEventsForUpload b.dir b.newestBatch maxCount maxSize
    (ret.map (⟨·, false⟩), { b with newestBatch := newest })

def getEventsForUpload (b : MultiFileEventBatch) (maxCount maxSize : Nat) :
    Option MultiFileEventList × MultiFileEventBatch :=
  b.checkOldestBatch.readUpload maxCount maxSize

def onEventsUploaded (b : MultiFileEventBatch) (events : MultiFileEventList) :
    MultiFileEventBatch :=
  match b.oldestBatch with
  | some oldest =>
    let (dir, oldest) := FileEventBatch.onEventsUploaded b.dir oldest events.wrapped
    { b with dir, oldestBatch := if oldest.hasEvents then some oldest else none }
  | none =>
    let (dir, newest) := FileEventBatch.onEventsUploaded b.dir b.newestBatch events.wrapped
    { b with dir, newestBatch := newest }

def hasEvents (b : MultiFileEventBatch) : Bool :=
  !b.oldBatches.isEmpty || b.oldestBatch.isSome || b.newestBatch.hasEvents

def setFileLimits (b : MultiFileEventBatch) (maxEvents maxSize : Nat) : MultiFileEventBatch :=
  { b with fileMaxEvents := maxEvents, fileMaxSize := maxSize
           oldestBatch := b.oldestBatch.map (·.setLimit maxEvents maxSize)
           newestBatch := b.newestBatch.setLimit maxEvents maxSize }

/-- The batch as an `EventBatch`. -/
def batch : EventBatch MultiFileEventBatch MultiFileEventList where
  addEvent := addEvent
  getEventsForUpload b maxCount maxSize := some (b.getEventsForUpload maxCount maxSize)
  onEventsUploaded b l := some (b.onEventsUploaded l)
  hasEvents := hasEvents
  getData l := some l.wrapped.data
  getEventCount l := some l.wrapped.events
  hasMoreEvents l := some (l.hasMoreFiles || l.wrapped.moreEvents)

/-- The lines in the batch files: the oldest file, then `oldBatches` in order, then the newest. -/
def storedLines (b : MultiFileEventBatch) : List Bytes :=
  (b.oldestBatch.elim [] fun o => lines (b.dir.content o.path)) ++
    b.oldBatches.flatMap (fun id => lines (b.dir.content (b.getBatchFileName id))) ++
    lines (b.dir.content b.newestBatch.path)

/-- The file that `getEventsForUpload` has read from and that `onEventsUploaded` works on. -/
def uploadFile (b : MultiFileEventBatch) : FileName :=
  (b.oldestBatch.getD b.newestBatch).path

end MultiFileEventBatch

/-! ## Names and numbers -/

theorem decimal_splitSign (id : Int) : ∃ c cs, decimal id = c :: cs ∧ isSpace c = false ∧
    ∃ (sign : Int) (n : Nat), splitSign (decimal id) = (sign, Nat.toDigits 10 n) ∧ sign * n = id := by
  cases id with
  | ofNat n =>
    obtain ⟨c, cs, hcs⟩ := List.exists_cons_of_ne_nil (Nat.toDigits_ne_nil (b := 10) (n := n))
    have hdigit : c.isDigit := Nat.isDigit_of_mem_toDigits (b := 10) (n := n) (by decide) (by decide)
      (by rw [hcs]; exact List.mem_cons_self)
    have hrange : 48 ≤ c.val ∧ c.val ≤ 57 := by simpa [Char.isDigit] using hdigit
    refine ⟨c, cs, hcs, ?_, 1, n, ?_, by simp⟩
    · rw [isSpace, decide_eq_false_iff_not]
      simp only [List.mem_cons, List.not_mem_nil, or_false, not_or]
      refine ⟨?_, ?_, ?_, ?_, ?_, ?_⟩ <;> rintro rfl <;> exact absurd hrange (by decide)
    · simp only [decimal, hcs]
      unfold splitSign
      split
      · next h => cases h; exact absurd hrange (by decide)
      · next h => cases h; exact absurd hrange (by decide)
      · rfl
  | negSucc n =>
    refine ⟨'-', Nat.toDigits 10 (n + 1), rfl, by decide, -1, n + 1, rfl, ?_⟩
    rw [Int.negSucc_eq]
    push_cast
    omega

/-- Reading a written number gives the number. -/
theorem stoull_decimal (id : Int) : stoull (decimal id) = some id := by
  obtain ⟨c, cs, hcs, hspace, sign, n, hsplit, hid⟩ := decimal_splitSign id
  have hdrop : (decimal id).dropWhile isSpace = decimal id := by
    rw [hcs, List.dropWhile_cons_of_neg (by simp [hspace])]
  have htake : (Nat.toDigits 10 n).takeWhile Char.isDigit = Nat.toDigits 10 n :=
    List.takeWhile_eq_self_iff.mpr fun c hc =>
      Nat.isDigit_of_mem_toDigits (by decide) (by decide) hc
  simp only [stoull, hdrop, hsplit, htake, if_neg Nat.toDigits_ne_nil,
    Nat.ofDigitChars_toDigits (by decide : 1 < 10) le_rfl, hid]

/-- `getBatches` reads the number back from a batch file's name. -/
theorem batchId_fileName (pre suf : FileName) (id : Int) :
    batchId pre suf (pre ++ decimal id ++ suf) = some id := by
  have hlen : (pre ++ decimal id ++ suf).length = pre.length + (decimal id).length + suf.length := by
    simp [Nat.add_assoc]
  rw [batchId, if_neg, List.append_assoc, List.drop_left]
  · rw [← List.append_assoc, hlen,
      show pre.length + (decimal id).length + suf.length - pre.length - suf.length =
        (decimal id).length by omega, List.take_left, stoull_decimal]
  · rw [hlen, show pre.length + (decimal id).length + suf.length - suf.length =
      (pre ++ decimal id).length by rw [List.length_append]; omega, List.drop_left,
      List.append_assoc, List.take_left]
    simp

theorem fileName_injective (pre suf : FileName) :
    Function.Injective fun id : Int => pre ++ decimal id ++ suf := by
  intro id id' h
  have := congrArg (batchId pre suf) h
  simp only [batchId_fileName] at this
  exact Option.some.inj this

/-! ## The files of the directory -/

/-- The batch files of a directory are `files`, in increasing order of their numbers, and hold the
records of the given events. -/
structure DirHolds (dir : Dir FileName) (pre suf : FileName) (files : List (Int × List Event)) :
    Prop where
  content : ∀ f ∈ files, dir.content (pre ++ decimal f.1 ++ suf) = records f.2
  present : ∀ f ∈ files, pre ++ decimal f.1 ++ suf ∈ dir
  listing : ∀ name ∈ dir, ∀ id, batchId pre suf name = some id →
    name = pre ++ decimal id ++ suf ∧ id ∈ files.map Prod.fst
  sorted : (files.map Prod.fst).Pairwise (· < ·)

namespace DirHolds
variable {dir : Dir FileName} {pre suf : FileName} {files before after : List (Int × List Event)}
  {id : Int} {es es' : List Event}

/-- The directory without a file that `getBatches` takes. -/
theorem of_noBatches (h : ∀ name ∈ dir, batchId pre suf name = none) : DirHolds dir pre suf [] :=
  ⟨by simp, by simp, fun name hn id hid => by simp [h name hn] at hid, .nil⟩

theorem id_ne (h : DirHolds dir pre suf (before ++ (id, es) :: after)) :
    ∀ f ∈ before ++ after, f.1 ≠ id := by
  have hs := h.sorted
  rw [List.map_append, List.map_cons, List.pairwise_append, List.pairwise_cons] at hs
  intro f hf
  rcases List.mem_append.mp hf with hf | hf
  · exact ne_of_lt (hs.2.2 f.1 (List.mem_map_of_mem hf) id List.mem_cons_self)
  · exact (ne_of_lt (hs.2.1.1 f.1 (List.mem_map_of_mem hf))).symm

theorem name_ne (pre suf : FileName) {id id' : Int} (h : id ≠ id') :
    pre ++ decimal id ++ suf ≠ pre ++ decimal id' ++ suf :=
  fun he => h (fileName_injective pre suf he)

theorem mem_of_id_ne {f : Int × List Event} (hf : f ∈ before ++ (id, es') :: after)
    (hid : f.1 ≠ id) : f ∈ before ++ (id, es) :: after := by
  have hne : f ≠ (id, es') := fun he => hid (congrArg Prod.fst he)
  simp only [List.mem_append, List.mem_cons, hne, false_or] at hf ⊢
  exact hf.imp_right .inr

/-- Rewriting one file. -/
theorem insert (h : DirHolds dir pre suf (before ++ (id, es) :: after)) (es' : List Event) :
    DirHolds (dir.insert (pre ++ decimal id ++ suf) (records es')) pre suf
      (before ++ (id, es') :: after) := by
  have hne := h.id_ne
  refine ⟨fun f hf => ?_, fun f hf => ?_, fun name hn id' hid => ?_, by simpa using h.sorted⟩
  · by_cases hid : f.1 = id
    · have : f = (id, es') := by
        by_contra hf'
        refine hne f ?_ hid
        simp only [List.mem_append, List.mem_cons, hf', false_or] at hf
        exact List.mem_append.mpr hf
      subst this
      exact Dir.content_insert ..
    · rw [Dir.content_insert_ne _ _ (name_ne pre suf hid)]
      exact h.content f (mem_of_id_ne hf hid)
  · by_cases hid : f.1 = id
    · rw [hid]
      exact (AList.mem_insert _).mpr (.inl rfl)
    · exact (AList.mem_insert _).mpr (.inr (h.present f (mem_of_id_ne hf hid)))
  · have hmem : (before ++ (id, es') :: after).map Prod.fst =
        (before ++ (id, es) :: after).map Prod.fst := by simp
    rw [hmem]
    rcases (AList.mem_insert _).mp hn with rfl | hn
    · rw [batchId_fileName, Option.some.injEq] at hid
      subst hid
      exact ⟨rfl, by simp⟩
    · exact h.listing name hn id' hid

theorem insert_head (h : DirHolds dir pre suf ((id, es) :: after)) (es' : List Event) :
    DirHolds (dir.insert (pre ++ decimal id ++ suf) (records es')) pre suf ((id, es') :: after) := by
  change DirHolds dir pre suf ([] ++ (id, es) :: after) at h
  exact h.insert es'

/-- Opening an existing file. -/
theorem openCreate (h : DirHolds dir pre suf files) (hf : (id, es) ∈ files) :
    DirHolds (dir.openCreate (pre ++ decimal id ++ suf)) pre suf files := by
  obtain ⟨before, after, rfl⟩ := List.append_of_mem hf
  rw [Dir.openCreate, h.content _ hf]
  exact h.insert es

/-- Creating the next file. -/
theorem create (h : DirHolds dir pre suf files) (hid : ∀ f ∈ files, f.1 < id) :
    DirHolds (dir.openCreate (pre ++ decimal id ++ suf)) pre suf (files ++ [(id, [])]) ∧
      dir.content (pre ++ decimal id ++ suf) = [] := by
  have habsent : pre ++ decimal id ++ suf ∉ dir := by
    intro hmem
    obtain ⟨_, hin⟩ := h.listing _ hmem id (batchId_fileName pre suf id)
    obtain ⟨f, hf, hfid⟩ := List.mem_map.mp hin
    exact absurd (hid f hf) (by rw [hfid]; exact lt_irrefl _)
  have hempty := Dir.content_of_notMem habsent
  refine ⟨⟨fun f hf => ?_, fun f hf => ?_, fun name hn id' hid' => ?_, ?_⟩, hempty⟩
  · rw [Dir.content_openCreate]
    rcases List.mem_append.mp hf with hf | hf
    · exact h.content f hf
    · rw [List.mem_singleton.mp hf]; exact hempty
  · rcases List.mem_append.mp hf with hf | hf
    · exact (AList.mem_insert _).mpr (.inr (h.present f hf))
    · rw [List.mem_singleton.mp hf]; exact (AList.mem_insert _).mpr (.inl rfl)
  · rcases (AList.mem_insert _).mp hn with rfl | hn
    · rw [batchId_fileName, Option.some.injEq] at hid'
      subst hid'
      exact ⟨rfl, by simp⟩
    · obtain ⟨hname, hin⟩ := h.listing name hn id' hid'
      exact ⟨hname, by rw [List.map_append]; exact List.mem_append_left _ hin⟩
  · rw [List.map_append, List.pairwise_append]
    refine ⟨h.sorted, by simp, fun i hi j hj => ?_⟩
    obtain ⟨f, hf, rfl⟩ := List.mem_map.mp hi
    rw [List.mem_singleton.mp hj]
    exact hid f hf

/-- Deleting a file. -/
theorem erase (h : DirHolds dir pre suf (before ++ (id, es) :: after)) :
    DirHolds (dir.erase (pre ++ decimal id ++ suf)) pre suf (before ++ after) := by
  have hne := h.id_ne
  have hsub : ∀ f ∈ before ++ after, f ∈ before ++ (id, es) :: after := by
    intro f hf
    rcases List.mem_append.mp hf with hf | hf
    · exact List.mem_append_left _ hf
    · exact List.mem_append_right _ (List.mem_cons_of_mem _ hf)
  refine ⟨fun f hf => ?_, fun f hf => ?_, fun name hn id' hid => ?_, ?_⟩
  · rw [Dir.content_erase_ne _ (name_ne pre suf (hne f hf))]
    exact h.content f (hsub f hf)
  · exact AList.mem_erase.mpr ⟨name_ne pre suf (hne f hf), h.present f (hsub f hf)⟩
  · obtain ⟨hname, hn⟩ := AList.mem_erase.mp hn
    obtain ⟨rfl, hin⟩ := h.listing name hn id' hid
    refine ⟨rfl, ?_⟩
    have hid' : id' ≠ id := by rintro rfl; exact hname rfl
    simpa [hid'] using hin
  · have hs := h.sorted
    rw [List.map_append, List.map_cons] at hs
    rw [List.map_append]
    exact hs.sublist ((List.sublist_cons_self _ _).append_left _)

theorem erase_head (h : DirHolds dir pre suf ((id, es) :: after)) :
    DirHolds (dir.erase (pre ++ decimal id ++ suf)) pre suf after := by
  change DirHolds dir pre suf ([] ++ (id, es) :: after) at h
  exact h.erase

/-- Scanning the directory finds the files in their order. -/
theorem getBatches (h : DirHolds dir pre suf files) :
    getBatches dir pre suf = files.map Prod.fst := by
  have hnodup : (dir.keys.filterMap (batchId pre suf)).Nodup := by
    rw [List.Nodup, List.pairwise_filterMap]
    refine dir.keys_nodup.imp_of_mem fun {n n'} hn hn' hne id hid id' hid' => ?_
    rintro rfl
    exact hne ((h.listing n hn id hid).1.trans (h.listing n' hn' id hid').1.symm)
  have hperm : (dir.keys.filterMap (batchId pre suf)).Perm (files.map Prod.fst) := by
    apply (List.perm_ext_iff_of_nodup hnodup (h.sorted.imp ne_of_lt)).mpr
    intro id
    rw [List.mem_filterMap]
    constructor
    · rintro ⟨name, hn, hid⟩
      exact (h.listing name hn id hid).2
    · intro hin
      obtain ⟨f, hf, rfl⟩ := List.mem_map.mp hin
      exact ⟨_, h.present f hf, batchId_fileName pre suf f.1⟩
  exact (List.perm_insertionSort _ _).trans hperm |>.eq_of_pairwise'
    (List.pairwise_insertionSort _ _) (h.sorted.imp le_of_lt)

end DirHolds

end McpeLauncher.Telemetry
