import McpeLauncher.Telemetry.MultiFileEventBatch

/-!
# The batch files as a queue

`Stores` relates a `MultiFileEventBatch` to the events in its older files and in the newest one.
Each operation of the batch keeps the relation and does to the sequence of stored events what a
queue operation does.
-/

namespace McpeLauncher.Telemetry
open ByteLines PosixFiles

namespace MultiFileEventBatch

/-- If the oldest file is open, it is the first of `old`; the others are listed in `oldBatches`. -/
def OldestOk (b : MultiFileEventBatch) (old : List (Int × List Event)) : Prop :=
  match b.oldestBatch with
  | none => old.map Prod.fst = b.oldBatches
  | some o => ∃ id es rest, old = (id, es) :: rest ∧ rest.map Prod.fst = b.oldBatches ∧
      o.Holds b.dir (es.map Event.record) ∧ o.path = b.getBatchFileName id ∧ o.finalized = true

/-- The batch has the files `old`, oldest first, and a newest file with the events `new`. -/
structure Stores (b : MultiFileEventBatch) (old : List (Int × List Event)) (new : List Event) :
    Prop where
  dir : DirHolds b.dir b.filePrefix b.fileSuffix (old ++ [(b.newestBatchId, new)])
  newest : b.newestBatch.Holds b.dir (new.map Event.record)
  newestPath : b.newestBatch.path = b.getBatchFileName b.newestBatchId
  newestOpen : b.newestBatch.finalized = false
  maxCount : b.newestBatch.maxCount = b.fileMaxEvents
  maxSize : b.newestBatch.maxSize = b.fileMaxSize
  oldest : b.OldestOk old

/-- The events in all files, oldest first. -/
def eventsOf (old : List (Int × List Event)) (new : List Event) : List Event :=
  old.flatMap Prod.snd ++ new

/-- The list `l` was read from the file that is now the upload file, and holds its first lines. -/
def HandsOut (b : MultiFileEventBatch) (old : List (Int × List Event)) (new : List Event)
    (l : MultiFileEventList) : Prop :=
  match b.oldestBatch with
  | some o => ∃ id es rest, old = (id, es) :: rest ∧
      o.HandedOut (es.map Event.record) l.wrapped
  | none => old = [] ∧ b.newestBatch.HandedOut (new.map Event.record) l.wrapped

variable {b : MultiFileEventBatch} {old rest : List (Int × List Event)} {new es : List Event}
  {id : Int} {e : Event}

theorem flatten_map_record (es : List Event) : (es.map Event.record).flatten = records es := rfl

theorem map_record_drop (es : List Event) (k : Nat) :
    (es.map Event.record).drop k = (es.drop k).map Event.record := List.map_drop.symm

namespace Stores

theorem files (h : b.Stores old new) : ∀ f ∈ old, b.dir.content (b.getBatchFileName f.1) = records f.2 :=
  fun f hf => h.dir.content f (List.mem_append_left _ hf)

theorem id_lt (h : b.Stores old new) : ∀ f ∈ old, f.1 < b.newestBatchId := by
  intro f hf
  have hs := h.dir.sorted
  rw [List.map_append, List.pairwise_append] at hs
  exact hs.2.2 f.1 (List.mem_map_of_mem hf) b.newestBatchId (by simp)

theorem lines_flatMap (old : List (Int × List Event)) (name : Int → FileName)
    (h : ∀ f ∈ old, b.dir.content (name f.1) = records f.2) :
    (old.map Prod.fst).flatMap (fun id => lines (b.dir.content (name id))) =
      (old.flatMap Prod.snd).map Event.record := by
  induction old with
  | nil => rfl
  | cons f old ih =>
    rw [List.map_cons, List.flatMap_cons, List.flatMap_cons, List.map_append,
      h f List.mem_cons_self, lines_records, ih fun f hf => h f (List.mem_cons_of_mem _ hf)]

/-- The lines in the files are the records of the stored events. -/
theorem storedLines (h : b.Stores old new) :
    b.storedLines = (eventsOf old new).map Event.record := by
  have hnew : lines (b.dir.content b.newestBatch.path) = new.map Event.record := by
    rw [h.newest.content, flatten_map_record, lines_records]
  have hfiles := lines_flatMap old b.getBatchFileName h.files
  have hold := h.oldest
  unfold OldestOk at hold
  rw [MultiFileEventBatch.storedLines, hnew, eventsOf, List.map_append]
  congr 1
  rw [← hfiles]
  cases ho : b.oldestBatch with
  | none => rw [ho] at hold; rw [hold]; rfl
  | some o =>
    rw [ho] at hold
    obtain ⟨id, es, rest, rfl, hrest, _, hpath, _⟩ := hold
    simp [hpath, hrest]

theorem hasEvents_of_ne_nil (h : b.Stores old new) (hne : eventsOf old new ≠ []) :
    b.hasEvents = true := by
  have hold := h.oldest
  unfold OldestOk at hold
  by_contra hf
  simp only [MultiFileEventBatch.hasEvents, Bool.not_eq_true, Bool.or_eq_false_iff,
    Bool.not_eq_false', List.isEmpty_iff, Option.isSome_eq_false_iff,
    Option.isNone_iff_eq_none] at hf
  obtain ⟨⟨hnil, hnone⟩, hnew⟩ := hf
  rw [hnone] at hold
  rw [hnil, List.map_eq_nil_iff] at hold
  have := mt h.newest.hasEvents_iff.mpr (by simp [hnew])
  simp_all [eventsOf]

end Stores

/-! ## Opening files -/

theorem openBatch_spec (hcontent : b.dir.content (b.getBatchFileName id) = records es)
    (write : Bool) :
    ∃ ev, b.openBatch id write = (b.dir.openCreate (b.getBatchFileName id), ev) ∧
      ev.Holds (b.dir.openCreate (b.getBatchFileName id)) (es.map Event.record) ∧
      ev.path = b.getBatchFileName id ∧ ev.finalized = !write ∧
      ev.maxCount = b.fileMaxEvents ∧ ev.maxSize = b.fileMaxSize := by
  obtain ⟨ev, hnew, hh, hp, hfin⟩ :=
    FileEventBatch.new_spec (fun _ => isLine_of_mem_records) hcontent
  refine ⟨_, by rw [openBatch, hnew], ?_⟩
  cases write with
  | true => exact ⟨hh.setLimit _ _, hp, hfin, rfl, rfl⟩
  | false => exact ⟨(hh.setLimit _ _).setFinalized, hp, rfl, rfl, rfl⟩

/-- Opening the newest file when the directory then has the files `old` and that one. -/
theorem openNewest_stores
    (hdir : DirHolds (b.dir.openCreate (b.getBatchFileName id)) b.filePrefix b.fileSuffix
      (old ++ [(id, new)]))
    (hcontent : b.dir.content (b.getBatchFileName id) = records new) (hold : b.OldestOk old) :
    (b.openNewest id).Stores old new := by
  obtain ⟨ev, hopen, hh, hp, hfin, hc, hz⟩ := openBatch_spec hcontent true
  have heq : b.openNewest id = { b with
      dir := b.dir.openCreate (b.getBatchFileName id), newestBatch := ev, newestBatchId := id } := by
    rw [openNewest, hopen]
  rw [heq]
  refine ⟨hdir, hh, hp, hfin, hc, hz, ?_⟩
  unfold OldestOk at hold ⊢
  cases ho : b.oldestBatch with
  | none => rw [ho] at hold; exact hold
  | some o =>
    rw [ho] at hold
    obtain ⟨id', es, rest, hcons, hids, hholds, hpath, hfin⟩ := hold
    refine ⟨id', es, rest, hcons, hids, hholds.frame ?_ (Dir.content_openCreate ..), hpath, hfin⟩
    exact (AList.mem_insert _).mpr (.inr hholds.mem)

/-- The constructor on a directory with files: the last of them is the newest. -/
theorem new_stores {dir : Dir FileName} {pre suf : FileName}
    (h : DirHolds dir pre suf (old ++ [(id, new)])) (maxEvents maxSize : Nat) :
    (MultiFileEventBatch.new dir pre suf maxEvents maxSize).Stores old new := by
  have hmem : (id, new) ∈ old ++ [(id, new)] := by simp
  simp only [MultiFileEventBatch.new, h.getBatches, List.map_append, List.map_cons, List.map_nil,
    List.dropLast_concat, List.getLast?_concat, Option.getD_some]
  exact openNewest_stores (h.openCreate hmem) (h.content _ hmem) rfl

/-- The constructor on a directory without batch files. -/
theorem new_stores_empty {dir : Dir FileName} {pre suf : FileName}
    (h : ∀ name ∈ dir, batchId pre suf name = none) (maxEvents maxSize : Nat) :
    (MultiFileEventBatch.new dir pre suf maxEvents maxSize).Stores [] [] := by
  have hdir := DirHolds.of_noBatches h
  have hid : ∀ f ∈ ([] : List (Int × List Event)), f.1 < 0 := by simp
  obtain ⟨hdir', hcontent⟩ := hdir.create hid
  simp only [MultiFileEventBatch.new, hdir.getBatches, List.map_nil, List.dropLast_nil,
    List.getLast?_nil, Option.getD_none]
  exact openNewest_stores hdir' hcontent rfl

namespace Stores

theorem getBatchFileName_ne (b : MultiFileEventBatch) {id id' : Int} (h : id ≠ id') :
    b.getBatchFileName id ≠ b.getBatchFileName id' :=
  DirHolds.name_ne b.filePrefix b.fileSuffix h

/-! ## Adding events -/

/-- Rotation: the newest file becomes the last of the older ones. -/
theorem rotate (h : b.Stores old new) :
    b.rotate.Stores (old ++ [(b.newestBatchId, new)]) [] ∧
      b.rotate.fileMaxEvents = b.fileMaxEvents ∧ b.rotate.fileMaxSize = b.fileMaxSize := by
  have hlt : ∀ f ∈ old ++ [(b.newestBatchId, new)], f.1 < b.newestBatchId + 1 := by
    intro f hf
    rcases List.mem_append.mp hf with hf | hf
    · have := h.id_lt f hf
      omega
    · rw [List.mem_singleton.mp hf]; exact Int.lt_succ _
  obtain ⟨hdir, hcontent⟩ := h.dir.create hlt
  have hold := h.oldest
  unfold MultiFileEventBatch.rotate
  split
  · next hc =>
    rw [Bool.and_eq_true, Option.isNone_iff_eq_none, List.isEmpty_iff] at hc
    unfold OldestOk at hold
    rw [hc.1, hc.2] at hold
    obtain rfl : old = [] := List.map_eq_nil_iff.mp hold
    refine ⟨openNewest_stores hdir hcontent ?_, rfl, rfl⟩
    exact ⟨_, new, [], rfl, hc.2.symm, h.newest.setFinalized, h.newestPath, rfl⟩
  · refine ⟨openNewest_stores hdir hcontent ?_, rfl, rfl⟩
    unfold OldestOk at hold ⊢
    simp only
    cases ho : b.oldestBatch with
    | none => rw [ho] at hold; simp [hold]
    | some o =>
      rw [ho] at hold
      obtain ⟨id, es, rest, rfl, hids, hrest⟩ := hold
      exact ⟨id, es, rest ++ [(b.newestBatchId, new)], by simp, by simp [hids], hrest⟩

/-- What a list in flight is read from survives a rotation. -/
theorem handsOut_rotate (h : b.Stores old new) (hl : b.HandsOut old new l) :
    b.rotate.HandsOut (old ++ [(b.newestBatchId, new)]) [] l := by
  have hold := h.oldest
  unfold HandsOut at hl
  unfold OldestOk at hold
  cases ho : b.oldestBatch with
  | none =>
    rw [ho] at hl hold
    obtain ⟨rfl, hl⟩ := hl
    have hnil : b.oldBatches = [] := by simpa using hold.symm
    have heq : b.rotate.oldestBatch = some b.newestBatch.setFinalized := by
      simp [MultiFileEventBatch.rotate, openNewest, ho, hnil]
    unfold HandsOut
    rw [heq]
    exact ⟨_, new, [], rfl, hl.le, hl.data, hl.stream⟩
  | some o =>
    rw [ho] at hl
    obtain ⟨id, es, rest, rfl, hl⟩ := hl
    have heq : b.rotate.oldestBatch = some o := by
      simp [MultiFileEventBatch.rotate, openNewest, ho]
    unfold HandsOut
    rw [heq]
    exact ⟨id, es, _, rfl, hl⟩

/-- Adding an event that the newest file takes. -/
theorem addNewest (h : b.Stores old new) (hcan : b.newestBatch.canAddEvent e.record.length = true) :
    ∃ dir newest, FileEventBatch.addEvent b.dir b.newestBatch e.record = (true, dir, newest) ∧
      Stores { b with dir, newestBatch := newest } old (new ++ [e]) ∧
      ∀ l, b.HandsOut old new l →
        HandsOut { b with dir, newestBatch := newest } old (new ++ [e]) l := by
  obtain ⟨newest, hadd, hh, hp, hfin, hc, hz, hkeep⟩ := h.newest.addEvent e.record_isLine hcan
  have hnew : new.map Event.record ++ [e.record] = (new ++ [e]).map Event.record := by simp
  have hdir : DirHolds (b.dir.insert b.newestBatch.path (records (new ++ [e]))) b.filePrefix
      b.fileSuffix (old ++ [(b.newestBatchId, new ++ [e])]) := by
    rw [h.newestPath]
    exact h.dir.insert _
  rw [hnew, flatten_map_record] at hadd hh
  refine ⟨_, newest, hadd, ⟨hdir, hh, hp.trans h.newestPath, hfin.trans h.newestOpen,
    hc.trans h.maxCount, hz.trans h.maxSize, ?_⟩, fun l hl => ?_⟩
  · have hold := h.oldest
    unfold OldestOk at hold ⊢
    simp only
    cases ho : b.oldestBatch with
    | none => rw [ho] at hold; exact hold
    | some o =>
      rw [ho] at hold
      obtain ⟨id, es, rest, rfl, hids, hholds, hpath, hofin⟩ := hold
      have hne : o.path ≠ b.newestBatch.path := by
        rw [hpath, h.newestPath]
        exact getBatchFileName_ne b (h.id_lt (id, es) List.mem_cons_self).ne
      refine ⟨id, es, rest, rfl, hids, hholds.frame ?_ (Dir.content_insert_ne _ _ hne), hpath, hofin⟩
      exact (AList.mem_insert _).mpr (.inr hholds.mem)
  · unfold HandsOut at hl ⊢
    simp only
    cases ho : b.oldestBatch with
    | none => rw [ho] at hl; exact ⟨hl.1, hnew ▸ hkeep _ hl.2⟩
    | some o => rw [ho] at hl; exact hl

/-- **Adding an event**: it goes to the newest file, or to a next one if that is full, or is
refused by an empty next file. Lists in flight keep holding the first events. -/
theorem addEvent (h : b.Stores old new) (e : Event) :
    ∃ old' new', (b.addEvent e).2.Stores old' new' ∧
      eventsOf old' new' = eventsOf old new ++ (if (b.addEvent e).1 then [e] else []) ∧
      (∀ l, b.HandsOut old new l → (b.addEvent e).2.HandsOut old' new' l) ∧
      (old' = old ∨ (old' = old ++ [(b.newestBatchId, new)] ∧
        b.newestBatch.canAddEvent e.record.length = false)) := by
  unfold MultiFileEventBatch.addEvent
  simp only
  split
  · next hcan =>
    obtain ⟨dir, newest, hadd, hs, hkeep⟩ := h.addNewest hcan
    simp only [hadd]
    exact ⟨old, new ++ [e], hs, by simp [eventsOf], hkeep, .inl rfl⟩
  · next hcan =>
    obtain ⟨hrot, _⟩ := h.rotate
    have hout := fun l hl => h.handsOut_rotate (l := l) hl
    have hfull := Bool.eq_false_iff.mpr hcan
    -- what `rotate` does is not looked into again
    generalize b.rotate = r at hrot hout ⊢
    cases hcan' : r.newestBatch.canAddEvent e.record.length with
    | true =>
      obtain ⟨dir, newest, hadd, hs, hkeep⟩ := hrot.addNewest hcan'
      simp only [hadd]
      exact ⟨_, [e], hs, by simp [eventsOf], fun l hl => hkeep l (hout l hl), .inr ⟨rfl, hfull⟩⟩
    | false =>
      simp only [FileEventBatch.addEvent_refused hcan']
      exact ⟨_, [], hrot, by simp [eventsOf], hout, .inr ⟨rfl, hfull⟩⟩

/-! ## Reading events -/

theorem setFileLimits (h : b.Stores old new) (c z : Nat) : (b.setFileLimits c z).Stores old new := by
  refine ⟨h.dir, h.newest.setLimit c z, h.newestPath, h.newestOpen, rfl, rfl, ?_⟩
  have hold := h.oldest
  unfold OldestOk at hold ⊢
  simp only [MultiFileEventBatch.setFileLimits]
  cases ho : b.oldestBatch with
  | none => rw [ho] at hold; exact hold
  | some o =>
    rw [ho] at hold
    obtain ⟨id, es, rest, hcons, hids, hholds, hpath, hfin⟩ := hold
    exact ⟨id, es, rest, hcons, hids, hholds.setLimit c z, hpath, hfin⟩

theorem handsOut_setFileLimits (hl : b.HandsOut old new l) (c z : Nat) :
    (b.setFileLimits c z).HandsOut old new l := by
  unfold HandsOut at hl ⊢
  simp only [MultiFileEventBatch.setFileLimits]
  cases ho : b.oldestBatch with
  | none => rw [ho] at hl; exact ⟨hl.1, hl.2.le, hl.2.data, hl.2.stream⟩
  | some o =>
    rw [ho] at hl
    obtain ⟨id, es, rest, hcons, hl⟩ := hl
    exact ⟨id, es, rest, hcons, hl.le, hl.data, hl.stream⟩

/-- Changes to other files do not concern the newest one. -/
theorem newest_frame (h : b.Stores old new) {dir : Dir FileName}
    (hmem : b.getBatchFileName b.newestBatchId ∈ dir)
    (hcontent : dir.content (b.getBatchFileName b.newestBatchId) =
      b.dir.content (b.getBatchFileName b.newestBatchId)) :
    b.newestBatch.Holds dir (new.map Event.record) :=
  h.newest.frame (h.newestPath ▸ hmem) (h.newestPath ▸ hcontent)

/-- The loop over `oldBatches` skips the files without events. -/
theorem checkOldestLoop (hnone : b.oldestBatch = none)
    (h : Stores { b with oldBatches := old.map Prod.fst } old new) :
    ∃ old', (b.checkOldestLoop (old.map Prod.fst)).Stores old' new ∧
      eventsOf old' new = eventsOf old new ∧ (∀ f ∈ old', f ∈ old) ∧
      ((b.checkOldestLoop (old.map Prod.fst)).oldestBatch = none → old' = []) ∧
      ∀ o, (b.checkOldestLoop (old.map Prod.fst)).oldestBatch = some o → o.hasEvents = true := by
  induction old generalizing b with
  | nil => exact ⟨[], h, rfl, fun _ hf => hf, fun _ => rfl, fun o ho => by cases hnone ▸ ho⟩
  | cons f rest ih =>
    obtain ⟨id, es⟩ := f
    have hne : b.getBatchFileName b.newestBatchId ≠ b.getBatchFileName id :=
      getBatchFileName_ne b (h.id_lt (id, es) List.mem_cons_self).ne'
    obtain ⟨ev, hopen, hh, hp, hfin, _⟩ :=
      openBatch_spec (b := b) (h.files (id, es) List.mem_cons_self) false
    have hdir := h.dir.openCreate (List.mem_append_left _ (List.mem_cons_self (a := (id, es))))
    simp only [List.map_cons, MultiFileEventBatch.checkOldestLoop, hopen]
    split
    · next hev =>
      refine ⟨(id, es) :: rest, ⟨hdir, ?_, h.newestPath, h.newestOpen, h.maxCount, h.maxSize, ?_⟩,
        rfl, fun _ hf => hf, by simp, fun o ho => by cases ho; exact hev⟩
      · exact h.newest_frame ((AList.mem_insert _).mpr (.inr (h.newestPath ▸ h.newest.mem)))
          (Dir.content_openCreate ..)
      · exact ⟨id, es, rest, rfl, rfl, hh, hp, hfin⟩
    · next hev =>
      have hnil : es = [] := by
        by_contra hes
        exact hev (hh.hasEvents_iff.mpr (by simpa using hes))
      subst hnil
      rw [hp]
      obtain ⟨old', hs, hevents, hsub, hold, hfront⟩ :=
        ih (b := { b with dir := (b.dir.openCreate (b.getBatchFileName id)).erase
                            (b.getBatchFileName id) }) hnone
          ⟨DirHolds.erase_head hdir,
            h.newest_frame
              (AList.mem_erase.mpr ⟨hne, (AList.mem_insert _).mpr (.inr (h.newestPath ▸ h.newest.mem))⟩)
              ((Dir.content_erase_ne _ hne).trans (Dir.content_openCreate ..)),
            h.newestPath, h.newestOpen, h.maxCount, h.maxSize,
            by unfold OldestOk; simp only [hnone]⟩
      exact ⟨old', hs, hevents, fun f hf => List.mem_cons_of_mem _ (hsub f hf), hold, hfront⟩

end Stores

/-- The oldest file is open but has no events. `getEventsForUpload` then has nothing to return,
and nothing ever closes the file. -/
def Stuck (b : MultiFileEventBatch) : Prop := ∃ o, b.oldestBatch = some o ∧ o.hasEvents = false

namespace Stores

theorem checkOldestBatch (h : b.Stores old new) :
    ∃ old', b.checkOldestBatch.Stores old' new ∧ eventsOf old' new = eventsOf old new ∧
      (∀ f ∈ old', f ∈ old) ∧ (b.checkOldestBatch.oldestBatch = none → old' = []) ∧
      (¬b.Stuck → ¬b.checkOldestBatch.Stuck) := by
  unfold MultiFileEventBatch.checkOldestBatch
  split
  · next hnone =>
    rw [Option.isNone_iff_eq_none] at hnone
    have hold := h.oldest
    unfold OldestOk at hold
    rw [hnone] at hold
    have heq : { b with oldBatches := old.map Prod.fst } = b := by rw [hold]
    obtain ⟨old', hs, hevents, hsub, hold', hfront⟩ := checkOldestLoop hnone (heq.symm ▸ h)
    rw [hold] at hs hold' hfront
    refine ⟨old', hs, hevents, hsub, hold', fun _ hstuck => ?_⟩
    obtain ⟨o, ho, hev⟩ := hstuck
    rw [hfront o ho] at hev
    cases hev
  · next hsome =>
    exact ⟨old, h, rfl, fun _ hf => hf, fun hn => absurd (Option.isNone_iff_eq_none.mpr hn) hsome, id⟩

theorem readUpload_newest (h : b.Stores [] new) (ho : b.oldestBatch = none) (c z : Nat) :
    ∃ r b', b.readUpload c z = (r, b') ∧ b'.Stores [] new ∧
      (∀ l, r = some l → b'.HandsOut [] new l ∧
        ((l.hasMoreFiles || l.wrapped.moreEvents) = false → l.wrapped.events = new.length)) ∧
      (new = [] → r = none) ∧
      (1 ≤ c → ∀ e es, new = e :: es → ∃ l, r = some l ∧ l.wrapped.events ≤ c ∧
        (0 < l.wrapped.events ↔ e.record.length ≤ min z FileEventBatch.readCap)) := by
  unfold MultiFileEventBatch.readUpload
  rw [ho]
  by_cases hempty : new.map Event.record = [] ∨ c = 0
  · simp only [h.newest.getEventsForUpload_none hempty z]
    refine ⟨none, b, by rw [← ho]; rfl, h, by simp, fun _ => rfl, ?_⟩
    rintro hc e es rfl
    simp only [List.map_cons, reduceCtorEq, false_or] at hempty
    omega
  · rw [not_or] at hempty
    obtain ⟨l, off, hget, hholds, hout, hle, hmore, hfit⟩ :=
      h.newest.getEventsForUpload_some hempty.1 (Nat.one_le_iff_ne_zero.mpr hempty.2) z
    have hold := h.oldest
    unfold OldestOk at hold
    rw [ho] at hold
    simp only [hget]
    refine ⟨some ⟨l, false⟩, _, rfl, ⟨h.dir, hholds, h.newestPath, h.newestOpen, h.maxCount,
      h.maxSize, hold⟩, fun l' hl' => ?_, fun hnil => ?_, ?_⟩
    · cases hl'
      exact ⟨⟨rfl, hout⟩, fun hm => by simpa using hmore (by simpa using hm)⟩
    · exact absurd (by rw [hnil]; rfl) hempty.1
    · rintro _ e es rfl
      exact ⟨⟨l, false⟩, rfl, hle, hfit e.record (es.map Event.record) rfl⟩

theorem readUpload_oldest (h : b.Stores old new) (ho : b.oldestBatch = some o) (c z : Nat) :
    ∃ r b', b.readUpload c z = (r, b') ∧ b'.Stores old new ∧
      (∀ l, r = some l → b'.HandsOut old new l ∧ l.hasMoreFiles = true) ∧
      (o.hasEvents = false → r = none ∧ b' = b) ∧
      (o.hasEvents = true → eventsOf old new ≠ [] ∧
        (1 ≤ c → ∀ e es, eventsOf old new = e :: es → ∃ l, r = some l ∧ l.wrapped.events ≤ c ∧
          (0 < l.wrapped.events ↔ e.record.length ≤ min z FileEventBatch.readCap))) := by
  have hold := h.oldest
  unfold OldestOk at hold
  rw [ho] at hold
  obtain ⟨id, es₀, rest, rfl, hids, hholds, hpath, hfin⟩ := hold
  unfold MultiFileEventBatch.readUpload
  rw [ho]
  by_cases hempty : es₀.map Event.record = [] ∨ c = 0
  · have hself : { b with oldestBatch := some o } = b := by rw [← ho]
    simp only [hholds.getEventsForUpload_none hempty z, hself]
    refine ⟨none, b, rfl, h, by simp, fun _ => ⟨rfl, rfl⟩, fun hev => ?_⟩
    have hne := hholds.hasEvents_iff.mp hev
    refine ⟨fun hnil => ?_, fun hc => ?_⟩
    · simp only [eventsOf, List.flatMap_cons, List.append_eq_nil_iff] at hnil
      exact hne (by rw [hnil.1.1]; rfl)
    · rcases hempty with hempty | hempty
      · exact absurd hempty hne
      · omega
  · rw [not_or] at hempty
    obtain ⟨l, off, hget, hholds', hout, hle, hmore, hfit⟩ :=
      hholds.getEventsForUpload_some hempty.1 (Nat.one_le_iff_ne_zero.mpr hempty.2) z
    have hes₀ : es₀ ≠ [] := by simpa using hempty.1
    obtain ⟨e₀, es₁, rfl⟩ := List.exists_cons_of_ne_nil hes₀
    simp only [hget]
    refine ⟨some ⟨l, true⟩, _, rfl, ⟨h.dir, h.newest, h.newestPath, h.newestOpen, h.maxCount,
      h.maxSize, ?_⟩, fun l' hl' => ?_, fun hev => ?_, fun _ => ⟨by simp [eventsOf], ?_⟩⟩
    · exact ⟨id, _, rest, rfl, hids, hholds', hpath, hfin⟩
    · cases hl'
      exact ⟨⟨id, _, rest, rfl, hout⟩, rfl⟩
    · rw [hholds.hasEvents_iff.mpr hempty.1] at hev
      cases hev
    · intro _ e es he
      simp only [eventsOf, List.flatMap_cons, List.cons_append, List.cons.injEq] at he
      obtain ⟨rfl, _⟩ := he
      exact ⟨⟨l, true⟩, rfl, hle, hfit e₀.record (es₁.map Event.record) rfl⟩

/-- **Reading events** leaves the stored ones as they are. A list holds the first events, and it
is empty exactly if the first event is larger than `maxSize` or than what is read of a file; there
is no list if the oldest file is stuck. -/
theorem getEventsForUpload (h : b.Stores old new) (c z : Nat) :
    ∃ old' r b', b.getEventsForUpload c z = (r, b') ∧ b'.Stores old' new ∧
      eventsOf old' new = eventsOf old new ∧ (∀ f ∈ old', f ∈ old) ∧
      (∀ l, r = some l → b'.HandsOut old' new l ∧
        ((l.hasMoreFiles || l.wrapped.moreEvents) = false →
          l.wrapped.events = (eventsOf old new).length)) ∧
      (b.Stuck → r = none ∧ b' = b) ∧
      (¬b.Stuck → (eventsOf old new = [] → r = none) ∧
        (1 ≤ c → ∀ e es, eventsOf old new = e :: es → ∃ l, r = some l ∧ l.wrapped.events ≤ c ∧
          (0 < l.wrapped.events ↔ e.record.length ≤ min z FileEventBatch.readCap))) := by
  obtain ⟨old', hs, hevents, hsub, hnone, hstuck⟩ := h.checkOldestBatch
  have hcheck : ∀ o, b.oldestBatch = some o → b.checkOldestBatch = b := by
    intro o ho
    simp [MultiFileEventBatch.checkOldestBatch, ho]
  rw [← hevents]
  cases ho : b.checkOldestBatch.oldestBatch with
  | none =>
    obtain rfl := hnone ho
    obtain ⟨r, b', hread, hs', hl, hempty, hsome⟩ := hs.readUpload_newest ho c z
    refine ⟨[], r, b', hread, hs', rfl, hsub, hl, ?_, fun _ => ⟨hempty, hsome⟩⟩
    rintro ⟨o, ho', _⟩
    rw [hcheck o ho', ho'] at ho
    cases ho
  | some o =>
    obtain ⟨r, b', hread, hs', hl, hempty, hsome⟩ := hs.readUpload_oldest ho c z
    refine ⟨old', r, b', hread, hs', rfl, hsub, fun l hr => ⟨(hl l hr).1, fun hm => ?_⟩, ?_,
      fun hns => ?_⟩
    · simp [(hl l hr).2] at hm
    · rintro ⟨o', ho', hev⟩
      rw [hcheck o' ho'] at ho hempty
      rw [ho', Option.some.injEq] at ho
      exact hempty (ho ▸ hev)
    · have hev : o.hasEvents = true := by
        by_contra hev
        exact hstuck hns ⟨o, ho, Bool.eq_false_iff.mpr hev⟩
      exact ⟨fun hnil => absurd hnil (hsome hev).1, (hsome hev).2⟩

/-- Files that are stuck or store no event give no list. -/
theorem getEventsForUpload_none (h : b.Stores old new)
    (hfiles : ¬(¬b.Stuck ∧ eventsOf old new ≠ [])) (c z : Nat) :
    ∃ old' b', b.getEventsForUpload c z = (none, b') ∧ b'.Stores old' new ∧
      eventsOf old' new = eventsOf old new ∧ ∀ f ∈ old', f ∈ old := by
  obtain ⟨old', r, b', hget, hs, hevents, hsub, _, hstuck, hread⟩ := h.getEventsForUpload c z
  obtain rfl : r = none := by
    by_cases hst : b.Stuck
    · exact (hstuck hst).1
    · exact (hread hst).1 (not_not.mp (not_and.mp hfiles hst))
  exact ⟨old', b', hget, hs, hevents, hsub⟩

/-- The data of a list in flight are the records of the first stored events. -/
theorem contents (hl : b.HandsOut old new l) :
    l.wrapped.events ≤ (eventsOf old new).length ∧
      l.wrapped.data = records ((eventsOf old new).take l.wrapped.events) := by
  unfold HandsOut at hl
  cases ho : b.oldestBatch with
  | none =>
    rw [ho] at hl
    obtain ⟨rfl, hl⟩ := hl
    refine ⟨by simpa [eventsOf] using hl.le, ?_⟩
    rw [hl.data, ← List.map_take]
    rfl
  | some o =>
    rw [ho] at hl
    obtain ⟨id, es, rest, rfl, hl⟩ := hl
    have hle : l.wrapped.events ≤ es.length := by simpa using hl.le
    refine ⟨by simp [eventsOf]; omega, ?_⟩
    rw [hl.data, ← List.map_take, eventsOf, List.flatMap_cons, List.append_assoc,
      List.take_append_of_le_length hle]
    rfl

/-- The events of an acknowledged list are gone, and no file has become empty. -/
def RemovesFirst (b : MultiFileEventBatch) (old : List (Int × List Event)) (new : List Event)
    (l : MultiFileEventList) : Prop :=
  ∃ old' new', (b.onEventsUploaded l).Stores old' new' ∧
    eventsOf old' new' = (eventsOf old new).drop l.wrapped.events ∧
    ((∀ f ∈ old, f.2 ≠ []) → ∀ f ∈ old', f.2 ≠ [])

/-- A list from the newest file. -/
theorem onEventsUploaded_newest (h : b.Stores old new) (hl : b.HandsOut old new l)
    (ho : b.oldestBatch = none) : RemovesFirst b old new l := by
  have hold := h.oldest
  unfold OldestOk at hold
  unfold HandsOut at hl
  unfold RemovesFirst MultiFileEventBatch.onEventsUploaded
  rw [ho] at hl hold ⊢
  obtain ⟨rfl, hl⟩ := hl
  obtain ⟨d', newest, hup, hp, hfin, hc, hz, hcase⟩ := h.newest.onEventsUploaded hl
  rcases hcase with ⟨hf, _⟩ | ⟨_, rfl, hholds⟩
  · rw [h.newestOpen] at hf; cases hf
  · rw [map_record_drop, flatten_map_record] at hholds hup
    simp only [hup]
    refine ⟨[], new.drop l.wrapped.events, ⟨?_, hholds, hp.trans h.newestPath,
      hfin.trans h.newestOpen, hc.trans h.maxCount, hz.trans h.maxSize, ?_⟩, rfl, fun hne => hne⟩
    · rw [h.newestPath]
      exact h.dir.insert_head _
    · exact hold

/-- A list from the oldest file, which may be used up. -/
theorem onEventsUploaded_oldest (h : b.Stores old new) (hl : b.HandsOut old new l)
    (ho : b.oldestBatch = some o) : RemovesFirst b old new l := by
  have hold := h.oldest
  unfold OldestOk at hold
  unfold HandsOut at hl
  unfold RemovesFirst MultiFileEventBatch.onEventsUploaded
  rw [ho] at hl hold ⊢
  obtain ⟨id, es, rest, rfl, hids, hholds, hpath, hofin⟩ := hold
  obtain ⟨id', es', rest', heq, hl⟩ := hl
  obtain ⟨⟨rfl, rfl⟩, rfl⟩ : (id = id' ∧ es = es') ∧ rest = rest' := by simpa using heq
  have hle : l.wrapped.events ≤ es.length := by simpa using hl.le
  have hne : b.getBatchFileName b.newestBatchId ≠ b.getBatchFileName id :=
    getBatchFileName_ne b (h.id_lt (id, es) List.mem_cons_self).ne'
  have hnewest : b.getBatchFileName b.newestBatchId ∈ b.dir := h.newestPath ▸ h.newest.mem
  have hdrop : (eventsOf ((id, es) :: rest) new).drop l.wrapped.events =
      es.drop l.wrapped.events ++ eventsOf rest new := by
    rw [eventsOf, List.flatMap_cons, List.append_assoc, List.drop_append_of_le_length hle]
    rfl
  obtain ⟨d', o', hup, hp, hfin, hc, hz, hcase⟩ := hholds.onEventsUploaded hl
  rw [hpath] at hcase
  simp only [hup]
  rcases hcase with ⟨_, hall, rfl, hsize⟩ | ⟨hnot, rfl, hholds'⟩
  · -- the file is used up: it has been removed, and the pointer is reset
    have hev : o'.hasEvents = false := by simp [FileEventBatch.hasEvents, hsize]
    rw [hev]
    refine ⟨rest, new, ⟨h.dir.erase_head, ?_, h.newestPath, h.newestOpen,
      h.maxCount, h.maxSize, hids⟩, ?_, fun hnil f hf => hnil f (List.mem_cons_of_mem _ hf)⟩
    · exact h.newest_frame (AList.mem_erase.mpr ⟨hne, hnewest⟩) (Dir.content_erase_ne _ hne)
    · rw [hdrop, hall]
      simp
  · have hlt : l.wrapped.events < es.length :=
      lt_of_le_of_ne hle fun he => hnot ⟨hofin, by simpa using he⟩
    have hrest : es.drop l.wrapped.events ≠ [] := by
      rw [Ne, List.drop_eq_nil_iff]
      omega
    rw [map_record_drop, flatten_map_record] at hholds' ⊢
    have hev : o'.hasEvents = true :=
      hholds'.hasEvents_iff.mpr (by simpa using hrest)
    rw [hev]
    refine ⟨(id, es.drop l.wrapped.events) :: rest, new, ⟨?_, ?_, h.newestPath, h.newestOpen,
      h.maxCount, h.maxSize, ?_⟩, hdrop.symm ▸ ?_, fun hnil f hf => ?_⟩
    · exact h.dir.insert_head _
    · exact h.newest_frame ((AList.mem_insert _).mpr (.inr hnewest)) (Dir.content_insert_ne _ _ hne)
    · exact ⟨id, _, rest, rfl, hids, hholds', hp.trans hpath, hfin.trans hofin⟩
    · simp [eventsOf]
    · rcases List.mem_cons.mp hf with rfl | hf
      · exact hrest
      · exact hnil f (List.mem_cons_of_mem _ hf)

/-- **Acknowledging** a list removes its events. -/
theorem onEventsUploaded (h : b.Stores old new) (hl : b.HandsOut old new l) :
    RemovesFirst b old new l := by
  cases ho : b.oldestBatch with
  | none => exact h.onEventsUploaded_newest hl ho
  | some o => exact h.onEventsUploaded_oldest hl ho

/-- A batch without empty older files is not stuck. -/
theorem not_stuck (h : b.Stores old new) (hne : ∀ f ∈ old, f.2 ≠ []) : ¬b.Stuck := by
  rintro ⟨o, ho, hev⟩
  have hold := h.oldest
  unfold OldestOk at hold
  rw [ho] at hold
  obtain ⟨id, es, rest, rfl, _, hholds, _⟩ := hold
  have : o.hasEvents = true :=
    hholds.hasEvents_iff.mpr (by simpa using hne (id, es) List.mem_cons_self)
  rw [this] at hev
  cases hev

/-- A batch without empty older files has events exactly if it stores one. -/
theorem hasEvents_iff (h : b.Stores old new) (hne : ∀ f ∈ old, f.2 ≠ []) :
    b.hasEvents = true ↔ eventsOf old new ≠ [] := by
  refine ⟨fun hev hnil => ?_, h.hasEvents_of_ne_nil⟩
  rw [eventsOf, List.append_eq_nil_iff, List.flatMap_eq_nil_iff] at hnil
  obtain rfl : old = [] :=
    List.eq_nil_iff_forall_not_mem.mpr fun f hf => hne f hf (hnil.1 f hf)
  obtain rfl := hnil.2
  have hold := h.oldest
  unfold OldestOk at hold
  cases ho : b.oldestBatch with
  | some o =>
    rw [ho] at hold
    obtain ⟨_, _, _, hcons, _⟩ := hold
    cases hcons
  | none =>
    rw [ho] at hold
    have hnew := mt h.newest.hasEvents_iff.mp (by simp)
    simp [MultiFileEventBatch.hasEvents, ho, ← hold, hnew] at hev

end Stores

/-! ## The queue -/

open Classical in
/-- The events in the files of a batch. -/
noncomputable def events (b : MultiFileEventBatch) : List Event :=
  if h : ∃ old new, b.Stores old new then eventsOf h.choose h.choose_spec.choose else []

theorem Stores.events_eq (h : b.Stores old new) : b.events = eventsOf old new := by
  have hex : ∃ old new, b.Stores old new := ⟨old, new, h⟩
  rw [events, dif_pos hex]
  apply List.map_injective_iff.mpr Event.record_injective
  rw [← hex.choose_spec.choose_spec.storedLines, h.storedLines]

/-- The batch is a FIFO queue. -/
noncomputable def fifo : batch.Fifo where
  Valid b := ∃ old new, b.Stores old new
  stored := events
  InFlight b l := ∃ old new, b.Stores old new ∧ b.HandsOut old new l
  addEvent := by
    rintro b e ⟨old, new, h⟩
    obtain ⟨old', new', hs, hevents, _⟩ := h.addEvent e
    refine ⟨⟨old', new', hs⟩, ?_, fun l hl => ?_⟩
    · exact hs.events_eq.trans (hevents.trans (by rw [h.events_eq]; rfl))
    · obtain ⟨old, new, h, hl⟩ := hl
      obtain ⟨old', new', hs, _, hkeep, _⟩ := h.addEvent e
      exact ⟨old', new', hs, hkeep l hl⟩
  getEventsForUpload := by
    rintro b c z ⟨old, new, h⟩
    obtain ⟨old', r, b', hget, hs, hevents, _, hout, _⟩ := h.getEventsForUpload c z
    refine ⟨r, b', congrArg some hget, ⟨old', new, hs⟩, ?_, fun l hl => ?_⟩
    · rw [hs.events_eq, hevents, h.events_eq]
    · obtain ⟨hl, hmore⟩ := hout l hl
      refine ⟨⟨old', new, hs, hl⟩, _, rfl, fun hm => ?_⟩
      rw [h.events_eq, ← hmore hm]
      rfl
  contents := by
    rintro b l - ⟨old, new, h, hl⟩
    obtain ⟨hle, hdata⟩ := Stores.contents hl
    rw [h.events_eq]
    exact ⟨_, hle, rfl, congrArg some hdata⟩
  onEventsUploaded := by
    rintro b l n - ⟨old, new, h, hl⟩ hn
    cases hn
    obtain ⟨old', new', hs, hevents, _⟩ := h.onEventsUploaded hl
    exact ⟨_, rfl, ⟨old', new', hs⟩, by rw [hs.events_eq, hevents, h.events_eq]⟩
  hasEvents := by
    rintro b ⟨old, new, h⟩ hev
    rw [h.events_eq]
    by_contra hne
    exact absurd (h.hasEvents_of_ne_nil hne) (by simpa [batch] using hev)

end MultiFileEventBatch

end McpeLauncher.Telemetry
