import McpeLauncher.Linker.LoadSegments

/-!
# Loaded segments

Both ways to load a library leave the same bytes in its segments: those of the file, and zeros behind
them. They write nowhere else, and nothing that is not mapped.
-/

namespace McpeLauncher.Linker
open Elf AddressSpace

variable {c : ElfClass} {k : Kernel} {r : ElfReader} {loadBias : Nat} {phdr : Phdr}
  {s s' : AddressSpace}

theorem addr_of_lt {x : Nat} (h : x < space c) : addr c x = x := Nat.mod_eq_of_lt h

/-! ## Pages -/

section
variable {a x y : Nat}

/-- The next boundary of pages. -/
def pageUp (x : Nat) : Nat := pageStart (x + (PAGE_SIZE - 1))

theorem pageOffset_lt (x : Nat) : pageOffset x < PAGE_SIZE := Nat.mod_lt x (by decide)

theorem pageStart_add_pageOffset (x : Nat) : pageStart x + pageOffset x = x :=
  Nat.sub_add_cancel (Nat.mod_le x PAGE_SIZE)

theorem pageStart_le (x : Nat) : pageStart x ≤ x := Nat.sub_le _ _

theorem pageStart_mod (x : Nat) : pageStart x % PAGE_SIZE = 0 :=
  Nat.mod_eq_zero_of_dvd (Nat.dvd_sub_mod x)

theorem pageOffset_add (h : a % PAGE_SIZE = 0) (x : Nat) : pageOffset (a + x) = pageOffset x := by
  rw [pageOffset, Nat.add_mod, h, Nat.zero_add, Nat.mod_mod, pageOffset]

theorem pageStart_add (h : a % PAGE_SIZE = 0) (x : Nat) : pageStart (a + x) = a + pageStart x := by
  rw [pageStart, pageOffset_add h, pageOffset, Nat.add_sub_assoc (Nat.mod_le x PAGE_SIZE),
    pageStart, pageOffset]

theorem pageStart_of_lt (h : x < PAGE_SIZE) : pageStart x = 0 := by
  rw [pageStart, pageOffset, Nat.mod_eq_of_lt h, Nat.sub_self]

theorem pageStart_mono (h : x ≤ y) : pageStart x ≤ pageStart y := by
  have hx := pageStart_add_pageOffset x
  have hy := pageStart_add_pageOffset y
  simp only [pageStart, pageOffset, PAGE_SIZE] at *
  omega

theorem pageUp_mod (x : Nat) : pageUp x % PAGE_SIZE = 0 := pageStart_mod _

theorem pageUp_add (h : a % PAGE_SIZE = 0) (x : Nat) : pageUp (a + x) = a + pageUp x := by
  rw [pageUp, Nat.add_assoc, pageStart_add h, pageUp]

theorem pageUp_mono (h : x ≤ y) : pageUp x ≤ pageUp y :=
  pageStart_mono (Nat.add_le_add_right h _)

theorem le_pageUp (x : Nat) : x ≤ pageUp x := by
  have hsum := pageStart_add_pageOffset (x + (PAGE_SIZE - 1))
  have hlt := pageOffset_lt (x + (PAGE_SIZE - 1))
  rw [pageUp]
  simp only [PAGE_SIZE] at *
  omega

theorem pageUp_le (x : Nat) : pageUp x ≤ x + (PAGE_SIZE - 1) := pageStart_le _

theorem pageUp_of_mod (h : x % PAGE_SIZE = 0) : pageUp x = x := by
  rw [pageUp, pageStart_add h, pageStart_of_lt (by decide), Nat.add_zero]

/-- What is missing to a whole page. -/
theorem add_sub_pageOffset (h : 0 < pageOffset x) :
    x + (PAGE_SIZE - pageOffset x) = pageUp x := by
  have hsum := pageStart_add_pageOffset x
  have hlt := pageOffset_lt x
  have hup : pageUp x = pageStart x + pageUp (pageOffset x) := by
    rw [← pageUp_add (pageStart_mod x), hsum]
  have hpage : pageUp (pageOffset x) = PAGE_SIZE := by
    rw [pageUp, show pageOffset x + (PAGE_SIZE - 1) = PAGE_SIZE + (pageOffset x - 1) by omega,
      pageStart_add (Nat.mod_self _), pageStart_of_lt (by omega), Nat.add_zero]
  omega

theorem pageEnd_eq (h : x + (PAGE_SIZE - 1) < space c) : pageEnd c x = pageUp x := by
  rw [pageEnd, addr_of_lt h, pageUp]

theorem alignUp_page (x : Nat) : alignUp x PAGE_SIZE = pageUp x := by
  have hdiv := Nat.div_add_mod' (x + (PAGE_SIZE - 1)) PAGE_SIZE
  rw [alignUp, pageUp, pageStart, pageOffset]
  omega

end

/-! ## One segment -/

/-- The address of a segment. -/
def Phdr.start (c : ElfClass) (loadBias : Nat) (phdr : Phdr) : Nat :=
  addr c (phdr.pVaddr + loadBias)

/-- The pages of a segment. -/
def Phdr.pages (c : ElfClass) (loadBias : Nat) (phdr : Phdr) : Set Nat :=
  Set.Ico (pageStart (phdr.start c loadBias)) (pageUp (phdr.start c loadBias + phdr.pMemsz))

theorem Phdr.mem_pages {i : Nat} (h : i < phdr.pMemsz) :
    phdr.start c loadBias + i ∈ phdr.pages c loadBias :=
  ⟨(pageStart_le _).trans (Nat.le_add_right _ _),
    Nat.lt_of_lt_of_le (Nat.add_lt_add_left h _) (le_pageUp _)⟩

/-- What a linker makes: a segment is as far from a page in memory as in the file, and has zeros
behind its part of the file only if it can be written. -/
structure Phdr.Loadable (c : ElfClass) (loadBias : Nat) (phdr : Phdr) : Prop where
  filesz_le : phdr.pFilesz ≤ phdr.pMemsz
  congruent : pageOffset (phdr.start c loadBias) = pageOffset phdr.pOffset
  memory_fits : phdr.start c loadBias + phdr.pMemsz + (PAGE_SIZE - 1) < space c
  file_fits : phdr.pOffset + phdr.pFilesz < space c
  zeros : phdr.isWritable = true ∨ phdr.pMemsz = phdr.pFilesz

/-- The bytes of a segment are there. -/
def ElfReader.HasImage (c : ElfClass) (r : ElfReader) (loadBias : Nat) (phdr : Phdr)
    (s : AddressSpace) : Prop :=
  ∀ i < phdr.pMemsz, s (phdr.start c loadBias + i) = .byte
    (if i < phdr.pFilesz then r.file.getD (r.fileOffset + phdr.pOffset + i) 0 else 0)

/-- The extent without overflows. -/
structure Extent.Of (c : ElfClass) (loadBias : Nat) (phdr : Phdr) (e : Extent) : Prop where
  page : e.segPageStart = pageStart (phdr.start c loadBias)
  segPageStart : e.segPageStart + pageOffset phdr.pOffset = phdr.start c loadBias
  segFileEnd : e.segFileEnd = e.segPageStart + e.fileLength
  fileLength : e.fileLength = pageOffset phdr.pOffset + phdr.pFilesz
  filePageStart : e.filePageStart + pageOffset phdr.pOffset = phdr.pOffset
  fileEnd : e.fileEnd = phdr.pOffset + phdr.pFilesz
  segPageEnd : e.segPageEnd = pageUp (phdr.start c loadBias + phdr.pMemsz)
  fits : e.segFileEnd + (PAGE_SIZE - 1) < space c

theorem Phdr.Loadable.extent (h : phdr.Loadable c loadBias) :
    (phdr.extent c loadBias).Of c loadBias phdr := by
  have hmemory := h.memory_fits
  have hfile := h.file_fits
  have hcongruent := h.congruent
  have hle := h.filesz_le
  obtain ⟨start, hstart⟩ : ∃ start, phdr.start c loadBias = start := ⟨_, rfl⟩
  have haddr : addr c (phdr.pVaddr + loadBias) = start := hstart
  rw [hstart] at hmemory hcongruent
  have hfileEnd : addr c (phdr.pOffset + phdr.pFilesz) = phdr.pOffset + phdr.pFilesz :=
    addr_of_lt hfile
  have hsegFileEnd : addr c (start + phdr.pFilesz) = start + phdr.pFilesz := addr_of_lt (by omega)
  have hsegEnd : addr c (start + phdr.pMemsz) = start + phdr.pMemsz := addr_of_lt (by omega)
  have hpage := pageStart_add_pageOffset phdr.pOffset
  have hlength : addr c (phdr.pOffset + phdr.pFilesz + (space c - pageStart phdr.pOffset)) =
      pageOffset phdr.pOffset + phdr.pFilesz := by
    have hsum : phdr.pOffset + phdr.pFilesz + (space c - pageStart phdr.pOffset) =
        pageOffset phdr.pOffset + phdr.pFilesz + space c := by omega
    rw [hsum, addr, Nat.add_mod_right, Nat.mod_eq_of_lt (by omega)]
  have hsegPageEnd : pageEnd c (start + phdr.pMemsz) = pageUp (start + phdr.pMemsz) :=
    pageEnd_eq hmemory
  rw [Phdr.extent, haddr, hfileEnd, hsegFileEnd, hsegEnd, hlength, hsegPageEnd]
  have hsegPageStart : pageStart start + pageOffset phdr.pOffset = start := by
    rw [← hcongruent]
    exact pageStart_add_pageOffset start
  constructor
  case segPageStart => exact hsegPageStart.trans hstart.symm
  case page => rw [hstart]
  case segFileEnd =>
    show start + phdr.pFilesz = pageStart start + (pageOffset phdr.pOffset + phdr.pFilesz)
    omega
  case fileLength => rfl
  case filePageStart => exact hpage
  case fileEnd => rfl
  case segPageEnd => rw [hstart]
  case fits =>
    show start + phdr.pFilesz + (PAGE_SIZE - 1) < space c
    omega

theorem Extent.Of.mem_pages {e : Extent} (he : e.Of c loadBias phdr) {x : Nat}
    (hlow : e.segPageStart ≤ x) (hhigh : x < e.segPageEnd) : x ∈ phdr.pages c loadBias :=
  ⟨he.page ▸ hlow, he.segPageEnd ▸ hhigh⟩

/-! ## Mapping -/

namespace ElfReader

/-- The bytes of the file from the page of a segment on. -/
def fileCell (r : ElfReader) (e : Extent) (i : Nat) : Cell :=
  .byte (r.file.getD (r.fileOffset + e.filePageStart + i) 0)

theorem fill_zero (s : AddressSpace) (a : Nat) (f : Nat → Cell) : s.fill a 0 f = s := by
  funext x
  exact fill_of_not_mem (by omega)

/-- A mapping of the file that succeeds. -/
theorem mapFile_eq {e : Extent} (h : r.mapFile k e s = some s') :
    s' = s.fill e.segPageStart (alignUp e.fileLength PAGE_SIZE) (r.fileCell e) := by
  rw [mapFile] at h
  split at h
  · next hzero =>
    obtain rfl := Option.some.inj h
    rw [hzero]
    exact (fill_zero s _ _).symm
  · split at h
    · exact (Option.some.inj h).symm
    · cases h

/-- The mapping of the file goes to the end of the last page that is in it. -/
theorem alignUp_fileLength {e : Extent} (he : e.Of c loadBias phdr) :
    e.segPageStart + alignUp e.fileLength PAGE_SIZE = pageEnd c e.segFileEnd := by
  rw [pageEnd_eq he.fits, alignUp_page, he.segFileEnd, pageUp_add (he.page ▸ pageStart_mod _)]

/-- Zeros in the last page of the file are zeros in the mapping. -/
theorem zeroFill_mapped {e : Extent} (he : e.Of c loadBias phdr) (isWritable : Bool)
    (s : AddressSpace) :
    ∃ s', zeroFill e isWritable
        (s.fill e.segPageStart (alignUp e.fileLength PAGE_SIZE) (r.fileCell e)) = some s' ∧
      ∀ x, s' x = if isWritable = true ∧ e.segFileEnd ≤ x ∧ x < pageEnd c e.segFileEnd then .byte 0
        else s.fill e.segPageStart (alignUp e.fileLength PAGE_SIZE) (r.fileCell e) x := by
  have hlast := alignUp_fileLength he
  have hend := he.segFileEnd
  have hpage : pageEnd c e.segFileEnd = pageUp e.segFileEnd := pageEnd_eq he.fits
  rw [zeroFill]
  split
  · next hzeros =>
    have hlength : e.segFileEnd + (PAGE_SIZE - pageOffset e.segFileEnd) =
        pageEnd c e.segFileEnd := by rw [hpage, add_sub_pageOffset hzeros.2]
    have hbytes : (s.fill e.segPageStart (alignUp e.fileLength PAGE_SIZE) (r.fileCell e)).HasBytes
        e.segFileEnd (List.replicate (PAGE_SIZE - pageOffset e.segFileEnd) (0 : UInt8)).length := by
      intro i hi
      rw [List.length_replicate] at hi
      rw [fill_of_mem (by omega) (by omega)]
      rfl
    refine ⟨_, write_eq hbytes, fun x => ?_⟩
    rw [List.length_replicate]
    by_cases hx : e.segFileEnd ≤ x ∧ x < pageEnd c e.segFileEnd
    · rw [if_pos ⟨hzeros.1, hx⟩, fill_of_mem hx.1 (by omega)]
      simp
    · rw [if_neg fun h => hx h.2, fill_of_not_mem (by omega)]
  · next hzeros =>
    -- behind the last byte of the file there is nothing in its page
    refine ⟨_, rfl, fun x => (if_neg fun hx => ?_).symm⟩
    refine hzeros ⟨hx.1, Nat.pos_of_ne_zero fun hzero => ?_⟩
    have hlt := Nat.lt_of_le_of_lt hx.2.1 hx.2.2
    rw [hpage, pageUp_of_mod hzero] at hlt
    exact Nat.lt_irrefl _ hlt

/-- Nothing but the pages of a segment changes, which has its bytes then if it is loaded. -/
structure Placed (c : ElfClass) (r : ElfReader) (loadBias : Nat) (phdr : Phdr)
    (s : AddressSpace) (ok : Bool) (s' : AddressSpace) : Prop where
  kept : ∀ x ∉ phdr.pages c loadBias, s' x = s x
  image : ok = true → r.HasImage c loadBias phdr s'

/-- The pages behind the file, where they can be mapped. -/
theorem zeroMap_eq {e : Extent} (h : zeroMap c k e s = some s') (x : Nat) :
    s' x = if pageEnd c e.segFileEnd ≤ x ∧ x < e.segPageEnd then .byte 0 else s x := by
  rw [zeroMap] at h
  split at h
  · next hlt =>
    split at h
    · obtain rfl := Option.some.inj h
      rw [fill, Nat.add_sub_cancel' (Nat.le_of_lt hlt)]
    · cases h
  · next hlt =>
    obtain rfl := Option.some.inj h
    exact (if_neg fun hx => hlt (Nat.lt_of_le_of_lt hx.1 hx.2)).symm

/-- What the three steps leave in the pages of a segment. -/
theorem placed_of_mapped (h : phdr.Loadable c loadBias) {e : Extent} (he : e.Of c loadBias phdr)
    {s₂ s₃ : AddressSpace}
    (hs₂ : ∀ x, s₂ x = if phdr.isWritable = true ∧ e.segFileEnd ≤ x ∧ x < pageEnd c e.segFileEnd
      then .byte 0
      else s.fill e.segPageStart (alignUp e.fileLength PAGE_SIZE) (r.fileCell e) x)
    (hs₃ : ∀ x, s₃ x = if pageEnd c e.segFileEnd ≤ x ∧ x < e.segPageEnd then .byte 0 else s₂ x) :
    r.Placed c loadBias phdr s true s₃ := by
  have hlast := alignUp_fileLength he
  have hstart := he.segPageStart
  have hend := he.segFileEnd
  have hlength := he.fileLength
  have hfile := he.filePageStart
  have hpage : pageEnd c e.segFileEnd = pageUp e.segFileEnd := pageEnd_eq he.fits
  have hbelow : e.segFileEnd ≤ pageEnd c e.segFileEnd := hpage ▸ le_pageUp _
  have hle := h.filesz_le
  have hlastPage : pageEnd c e.segFileEnd ≤ e.segPageEnd := by
    rw [hpage, he.segPageEnd]
    exact pageUp_mono (by omega)
  have hsegEnd : phdr.start c loadBias + phdr.pMemsz ≤ e.segPageEnd := he.segPageEnd ▸ le_pageUp _
  constructor
  case image =>
    intro _ i hi
    rw [hs₃, hs₂]
    by_cases hinFile : i < phdr.pFilesz
    · rw [if_neg (by omega), if_neg (by omega), fill_of_mem (by omega) (by omega), if_pos hinFile,
        fileCell]
      congr 2
      omega
    · rw [if_neg hinFile]
      split
      · rfl
      · next hnot =>
        have hwritable : phdr.isWritable = true := h.zeros.resolve_right (by omega)
        rw [if_pos ⟨hwritable, by omega, by omega⟩]
  case kept =>
    intro x hx
    have hout : ¬(e.segPageStart ≤ x ∧ x < e.segPageEnd) := fun hin =>
      hx (he.mem_pages hin.1 hin.2)
    rw [hs₃, hs₂, if_neg (by omega), if_neg (by omega), fill_of_not_mem (by omega)]

/-- A mapping behind the file that fails leaves what was mapped before. -/
theorem Placed.of_not_zeroMapped {s₂ : AddressSpace} {e : Extent} (he : e.Of c loadBias phdr)
    (h : r.Placed c loadBias phdr s true fun x =>
      if pageEnd c e.segFileEnd ≤ x ∧ x < e.segPageEnd then .byte 0 else s₂ x) :
    r.Placed c loadBias phdr s false s₂ := by
  refine ⟨fun x hx => ?_, fun h => nomatch h⟩
  have hlast := alignUp_fileLength he
  have hkept := h.kept x hx
  rwa [if_neg fun hin => hx (he.mem_pages (by omega) hin.2)] at hkept

theorem mapSegment_placed (h : phdr.Loadable c loadBias) (s : AddressSpace) :
    ∃ ok s', r.mapSegment c k (phdr.extent c loadBias) phdr.isWritable s = some (ok, s') ∧
      r.Placed c loadBias phdr s ok s' := by
  have he := h.extent
  generalize phdr.extent c loadBias = e at he
  rw [mapSegment]
  cases hmap : r.mapFile k e s with
  | none => exact ⟨false, s, rfl, fun _ _ => rfl, fun h => nomatch h⟩
  | some s₁ =>
    obtain rfl := mapFile_eq hmap
    obtain ⟨s₂, hfill, hs₂⟩ := zeroFill_mapped (r := r) he phdr.isWritable s
    dsimp only
    rw [hfill, Option.map_some]
    cases hzero : zeroMap c k e s₂ with
    | none =>
      exact ⟨false, s₂, rfl, .of_not_zeroMapped he (placed_of_mapped h he hs₂ fun _ => rfl)⟩
    | some s₃ => exact ⟨true, s₃, rfl, placed_of_mapped h he hs₂ (zeroMap_eq hzero)⟩

/-! ## Copying -/

/-- The loop copies all bytes, or fails where the file ends. -/
theorem copyFile_eq (r : ElfReader) {pos dest n : Nat} (hfile : pos + n ≤ r.file.length)
    (s : AddressSpace) (hbytes : s.HasBytes dest n) :
    r.copyFile pos dest n s =
      some (true, s.fill dest n fun i => .byte (r.file.getD (pos + i) 0)) := by
  induction n using Nat.strong_induction_on generalizing pos dest s with
  | _ n ih =>
    cases n with
    | zero => rw [copyFile, fill_zero]
    | succ n =>
      rw [copyFile]
      obtain ⟨size, hsize⟩ : ∃ size, min (n + 1) 4096 = size := ⟨_, rfl⟩
      have hlength : ((r.file.drop pos).take size).length = size := by
        rw [List.length_take, List.length_drop]
        omega
      have hwrite : s.HasBytes dest ((r.file.drop pos).take size).length := fun i hi =>
        hbytes i (by omega)
      rw [hsize, if_neg (not_not.mpr hlength), write_eq hwrite, Option.bind_some, hlength]
      have hrest : (s.fill dest size fun i =>
          .byte (((r.file.drop pos).take size).getD i 0)).HasBytes (dest + size) (n + 1 - size) := by
        intro i hi
        rw [fill_of_not_mem (by omega), Nat.add_assoc]
        exact hbytes _ (by omega)
      rw [ih _ (by omega) (by omega) _ hrest, fill_fill, Nat.add_sub_cancel' (by omega)]
      refine congrArg (fun s => some (true, s)) (congrArg (s.fill dest (n + 1)) (funext fun i => ?_))
      split
      · next hi =>
        simp [hi]
      · next hi =>
        congr 2
        omega

theorem copySegment_placed (h : phdr.Loadable c loadBias)
    (hfile : r.fileOffset + phdr.pOffset + phdr.pFilesz ≤ r.file.length)
    (hzeros : ∀ x ∈ phdr.pages c loadBias, s x = .byte 0) :
    ∃ s', r.copyFile (r.fileOffset + (phdr.extent c loadBias).filePageStart)
        (phdr.extent c loadBias).segPageStart (phdr.extent c loadBias).fileLength s =
          some (true, s') ∧ r.Placed c loadBias phdr s true s' := by
  have he := h.extent
  generalize phdr.extent c loadBias = e at he
  have hstart := he.segPageStart
  have hlength := he.fileLength
  have hoffset := he.filePageStart
  have hle := h.filesz_le
  have hin {x : Nat} (hlow : e.segPageStart ≤ x)
      (hhigh : x < phdr.start c loadBias + phdr.pMemsz) : x ∈ phdr.pages c loadBias :=
    ⟨he.page ▸ hlow, Nat.lt_of_lt_of_le hhigh (le_pageUp _)⟩
  have hbytes : s.HasBytes e.segPageStart e.fileLength := by
    intro i hi
    rw [hzeros _ (hin (by omega) (by omega))]
    rfl
  refine ⟨_, copyFile_eq r (by omega) s hbytes, ?_⟩
  constructor
  case image =>
    intro _ i hi
    by_cases hinFile : i < phdr.pFilesz
    · rw [fill_of_mem (by omega) (by omega), if_pos hinFile]
      congr 2
      omega
    · rw [fill_of_not_mem (by omega), if_neg hinFile, hzeros _ (hin (by omega) (by omega))]
  case kept =>
    intro x hx
    refine fill_of_not_mem fun hcopied => hx (hin hcopied.1 ?_)
    omega

/-! ## All segments -/

/-- What `LoadSegments` relies on: the file is as long as it says, and new memory is zero where
segments are copied. -/
structure Ready (c : ElfClass) (k : Kernel) (r : ElfReader) (loadBias : Nat) (phdr : Phdr)
    (s : AddressSpace) : Prop where
  loadable : phdr.Loadable c loadBias
  zeros : k.pagesize ≠ PAGE_SIZE → ∀ x ∈ phdr.pages c loadBias, s x = .byte 0

theorem loadSegment_placed (hlength : r.fileOffset + r.fileSize ≤ r.file.length)
    (h : r.Ready c k loadBias phdr s) :
    ∃ ok s', r.loadSegment c k loadBias phdr s = some (ok, s') ∧
      r.Placed c loadBias phdr s ok s' := by
  rw [loadSegment]
  split
  · exact ⟨false, s, rfl, fun _ _ => rfl, fun h => nomatch h⟩
  · next hsize =>
    split
    · next hpagesize =>
      have hend := h.loadable.extent.fileEnd
      obtain ⟨s', hcopy, hplaced⟩ := copySegment_placed (r := r) h.loadable
        (by omega) (h.zeros hpagesize)
      exact ⟨true, s', hcopy, hplaced⟩
    · exact mapSegment_placed h.loadable s

/-- **The segments are loaded**, without a write to what is not mapped. -/
theorem loadSegments_placed (hlength : r.fileOffset + r.fileSize ≤ r.file.length)
    {phdrs : List Phdr}
    (hdisjoint : phdrs.Pairwise fun a b => ∀ x ∈ a.pages c loadBias, x ∉ b.pages c loadBias)
    (hready : ∀ phdr ∈ phdrs, r.Ready c k loadBias phdr s) :
    ∃ ok s', r.loadSegments c k loadBias phdrs s = some (ok, s') ∧
      (∀ x, (∀ phdr ∈ phdrs, x ∉ phdr.pages c loadBias) → s' x = s x) ∧
      (ok = true → ∀ phdr ∈ phdrs, r.HasImage c loadBias phdr s') := by
  induction phdrs generalizing s with
  | nil => exact ⟨true, s, rfl, fun _ _ => rfl, fun _ => List.forall_mem_nil _⟩
  | cons phdr phdrs ih =>
    obtain ⟨hfirst, hdisjoint⟩ := List.pairwise_cons.mp hdisjoint
    obtain ⟨hphdr, hphdrs⟩ := List.forall_mem_cons.mp hready
    obtain ⟨ok, s₁, hload, hplaced⟩ := loadSegment_placed hlength hphdr
    rw [loadSegments, hload, Option.bind_some]
    cases ok with
    | false =>
      exact ⟨false, s₁, rfl, fun x hx => hplaced.kept x (hx phdr (.head _)), fun h => nomatch h⟩
    | true =>
      have hready₁ : ∀ other ∈ phdrs, r.Ready c k loadBias other s₁ := by
        intro other hother
        refine ⟨(hphdrs other hother).loadable, fun hpagesize x hx => ?_⟩
        rw [hplaced.kept x fun hin => hfirst other hother x hin hx]
        exact (hphdrs other hother).zeros hpagesize x hx
      obtain ⟨ok, s', hrest, hkept, himages⟩ := ih hdisjoint hready₁
      refine ⟨ok, s', hrest, fun x hx => ?_, fun hok => List.forall_mem_cons.mpr ⟨?_, himages hok⟩⟩
      · obtain ⟨hx, hrest⟩ := List.forall_mem_cons.mp hx
        rw [hkept x hrest, hplaced.kept x hx]
      · -- the pages of the other segments are others
        intro i hi
        rw [← hplaced.image rfl i hi]
        exact hkept _ fun other hother =>
          hfirst other hother _ (Phdr.mem_pages hi)

end ElfReader

/-! ## Reserving addresses -/

theorem alignUp_of_dvd {align n : Nat} (h : align ∣ n) (hpos : 0 < align) : alignUp n align = n := by
  obtain ⟨q, rfl⟩ := h
  rw [alignUp, Nat.add_comm, Nat.add_mul_div_left _ _ hpos,
    Nat.div_eq_of_lt (Nat.sub_lt hpos one_pos), Nat.zero_add, Nat.mul_comm]

theorem le_alignUp {align : Nat} (hpos : 0 < align) (n : Nat) : n ≤ alignUp n align := by
  have hdiv := Nat.div_add_mod (n + (align - 1)) align
  have hlt := Nat.mod_lt (n + (align - 1)) hpos
  rw [alignUp, Nat.mul_comm]
  omega

theorem alignUp_add_of_dvd {align m : Nat} (h : align ∣ m) (n : Nat) :
    alignUp (m + n) align = m + alignUp n align := by
  obtain ⟨q, rfl⟩ := h
  rcases Nat.eq_zero_or_pos align with rfl | hpos
  · simp [alignUp]
  · rw [alignUp, alignUp, Nat.add_assoc, Nat.mul_add_div hpos, Nat.add_mul, Nat.mul_comm q]

/-- What is documented about new mappings: they are whole pages, where nothing was mapped before. -/
structure Kernel.Documented (c : ElfClass) (k : Kernel) (s : AddressSpace) : Prop where
  page_dvd : PAGE_SIZE ∣ k.pagesize
  dvd_alignment : k.pagesize ∣ kLibraryAlignment
  mmap : ∀ size p, k.mmap size = some p → k.pagesize ∣ p ∧
    p + alignUp size k.pagesize + (PAGE_SIZE - 1) < space c ∧
    ∀ x ∈ Set.Ico p (p + alignUp size k.pagesize), s x = .unmapped

/-- The range is new memory, and what was mapped before is not touched. -/
structure Reserved (c : ElfClass) (k : Kernel) (s : AddressSpace) (start size : Nat)
    (s' : AddressSpace) : Prop where
  aligned : start % PAGE_SIZE = 0
  fits : start + size + (PAGE_SIZE - 1) < space c
  new : ∀ x ∈ Set.Ico start (start + size), s x = .unmapped ∧ s' x = k.newCell
  kept : ∀ x, s x ≠ .unmapped → s' x = s x
  exact_of_pagesize : k.pagesize = PAGE_SIZE → ∀ x ∉ Set.Ico start (start + size), s' x = s x

theorem Kernel.munmap_of_dvd {a : Nat} (h : k.pagesize ∣ a) (hpos : 0 < k.pagesize)
    (s : AddressSpace) (n x : Nat) : k.munmap s a n x =
      if a ≤ x ∧ x < a + alignUp n k.pagesize then .unmapped else s x := by
  rw [Kernel.munmap]
  split
  · rfl
  · next hnot =>
    have hzero : n = 0 := by
      by_contra hne
      exact hnot ⟨Nat.mod_eq_zero_of_dvd h, hne⟩
    rw [hzero, alignUp_of_dvd (Nat.dvd_zero _) hpos, if_neg (by omega)]

theorem Kernel.munmap_of_not_dvd {a : Nat} (h : ¬k.pagesize ∣ a) (s : AddressSpace) (n : Nat) :
    k.munmap s a n = s := if_neg fun hmod => h (Nat.dvd_of_mod_eq_zero hmod.1)

/-- What is left of a new mapping without the part before `start` and, as far as it is whole pages,
the part behind the library. -/
theorem Kernel.munmap_munmap {p start size mmapSize : Nat} (hpos : 0 < k.pagesize)
    (hpdvd : k.pagesize ∣ p) (hstartdvd : k.pagesize ∣ start) (hlow : p ≤ start)
    (hend : start + size ≤ p + mmapSize) (x : Nat) :
    k.munmap (k.munmap (s.fill p (alignUp mmapSize k.pagesize) fun _ => k.newCell) p (start - p))
        (start + size) (p + mmapSize - (start + size)) x =
      if k.pagesize ∣ start + size ∧ start + size ≤ x ∧ x < p + alignUp mmapSize k.pagesize ∨
          p ≤ x ∧ x < start then .unmapped
      else if p ≤ x ∧ x < p + alignUp mmapSize k.pagesize then k.newCell else s x := by
  have hhead : alignUp (start - p) k.pagesize = start - p :=
    alignUp_of_dvd (Nat.dvd_sub hstartdvd hpdvd) hpos
  by_cases hdvd : k.pagesize ∣ start + size
  · -- the end of what is unmapped is the end of what was mapped
    have htail : start + size + alignUp (p + mmapSize - (start + size)) k.pagesize =
        p + alignUp mmapSize k.pagesize := by
      rw [← alignUp_add_of_dvd hdvd, Nat.add_sub_cancel' hend, alignUp_add_of_dvd hpdvd]
    rw [Kernel.munmap_of_dvd hdvd hpos, htail, Kernel.munmap_of_dvd hpdvd hpos, hhead,
      Nat.add_sub_cancel' hlow]
    simp only [hdvd, true_and, ite_or]
    rfl
  · rw [Kernel.munmap_of_not_dvd hdvd, Kernel.munmap_of_dvd hpdvd hpos, hhead,
      Nat.add_sub_cancel' hlow]
    simp only [hdvd, false_and, false_or]
    rfl

theorem Kernel.Documented.reserveAligned (hk : k.Documented c s) {start size : Nat}
    (hsize : size % PAGE_SIZE = 0)
    (h : k.reserveAligned s size kLibraryAlignment = some (start, s')) :
    Reserved c k s start size s' := by
  rw [Kernel.reserveAligned] at h
  obtain ⟨p, hp, hrun⟩ := Option.map_eq_some_iff.mp h
  obtain ⟨hpdvd, hpfits, hfree⟩ := hk.mmap _ p hp
  have hpos : 0 < k.pagesize := Nat.pos_of_dvd_of_pos hk.dvd_alignment (by decide)
  have hstartdvd : k.pagesize ∣ alignUp p kLibraryAlignment :=
    hk.dvd_alignment.trans (Nat.dvd_mul_left _ _)
  have hpage : p % PAGE_SIZE = 0 := Nat.mod_eq_zero_of_dvd (hk.page_dvd.trans hpdvd)
  have halignment : 0 < kLibraryAlignment := by decide
  have hlow := le_alignUp halignment p
  have hsizeLe := le_alignUp halignment size
  have hhigh : alignUp p kLibraryAlignment + PAGE_SIZE ≤ p + kLibraryAlignment := by
    simp only [alignUp, kLibraryAlignment, PAGE_SIZE] at *
    omega
  generalize hmmapSize :
    alignUp size kLibraryAlignment + kLibraryAlignment - PAGE_SIZE = mmapSize at *
  have hmmapLe := le_alignUp hpos mmapSize
  obtain ⟨hstart, hs'⟩ := Prod.mk.inj hrun
  rw [hstart] at hs' hstartdvd hlow hhigh
  have hstartPage : start % PAGE_SIZE = 0 := Nat.mod_eq_zero_of_dvd (hk.page_dvd.trans hstartdvd)
  have hend : start + size ≤ p + mmapSize := by
    simp only [kLibraryAlignment, PAGE_SIZE] at *
    omega
  have hcells := Kernel.munmap_munmap (s := s) hpos hpdvd hstartdvd hlow hend
  rw [hs'] at hcells
  constructor
  case aligned => exact hstartPage
  case fits => omega
  case new =>
    intro x hx
    obtain ⟨hxlow, hxhigh⟩ := Set.mem_Ico.mp hx
    refine ⟨hfree x ⟨by omega, by omega⟩, ?_⟩
    rw [hcells, if_neg (by omega), if_pos (by omega)]
  case kept =>
    intro x hx
    have hout : ¬(p ≤ x ∧ x < p + alignUp mmapSize k.pagesize) := fun hin => hx (hfree x hin)
    rw [hcells, if_neg (by omega), if_neg hout]
  case exact_of_pagesize =>
    intro hpagesize x hx
    rw [Set.mem_Ico] at hx
    have hdvd : k.pagesize ∣ start + size := by
      rw [hpagesize]
      exact Nat.dvd_add (Nat.dvd_of_mod_eq_zero hstartPage) (Nat.dvd_of_mod_eq_zero hsize)
    rw [hcells]
    split
    · next hin => exact (hfree x ⟨by omega, by omega⟩).symm
    · rw [if_neg (by omega)]

/-- The range that the segments are in. -/
theorem foldl_extend {phdrs : List Phdr} {range : Nat × Nat}
    (hfits : ∀ phdr ∈ phdrs, phdr.pVaddr + phdr.pMemsz + (PAGE_SIZE - 1) < space c)
    (hrange : range.2 + (PAGE_SIZE - 1) < space c) :
    (∀ phdr ∈ phdrs, (phdrs.foldl (extend c) range).1 ≤ phdr.pVaddr ∧
      phdr.pVaddr + phdr.pMemsz ≤ (phdrs.foldl (extend c) range).2) ∧
    (phdrs.foldl (extend c) range).1 ≤ range.1 ∧ range.2 ≤ (phdrs.foldl (extend c) range).2 ∧
    (phdrs.foldl (extend c) range).2 + (PAGE_SIZE - 1) < space c := by
  induction phdrs generalizing range with
  | nil => exact ⟨List.forall_mem_nil _, Nat.le_refl _, Nat.le_refl _, hrange⟩
  | cons phdr phdrs ih =>
    obtain ⟨hphdr, hphdrs⟩ := List.forall_mem_cons.mp hfits
    have hend : addr c (phdr.pVaddr + phdr.pMemsz) = phdr.pVaddr + phdr.pMemsz :=
      addr_of_lt (by omega)
    have hnext : (extend c range phdr).2 + (PAGE_SIZE - 1) < space c := by
      simp only [extend, hend]
      omega
    obtain ⟨hall, hlow, hhigh, hfits⟩ := ih hphdrs hnext
    simp only [extend, hend] at hall hlow hhigh hfits
    rw [List.foldl_cons, extend, hend]
    exact ⟨List.forall_mem_cons.mpr ⟨by omega, hall⟩, by omega, by omega, hfits⟩

namespace ElfReader

/-- A library as a linker makes it. -/
structure WellFormed (c : ElfClass) (r : ElfReader) : Prop where
  filesz_le : ∀ phdr ∈ r.loads, phdr.pFilesz ≤ phdr.pMemsz
  congruent : ∀ phdr ∈ r.loads, pageOffset phdr.pVaddr = pageOffset phdr.pOffset
  memory_fits : ∀ phdr ∈ r.loads, phdr.pVaddr + phdr.pMemsz + (PAGE_SIZE - 1) < space c
  file_fits : ∀ phdr ∈ r.loads, phdr.pOffset + phdr.pFilesz < space c
  zeros : ∀ phdr ∈ r.loads, phdr.isWritable = true ∨ phdr.pMemsz = phdr.pFilesz
  ascending : r.loads.Pairwise fun a b =>
    pageUp (a.pVaddr + a.pMemsz) ≤ pageStart b.pVaddr
  length : r.fileOffset + r.fileSize ≤ r.file.length
  header : ∀ phdr ∈ r.loads, phdr.pOffset = 0 → posPhoff c + c.word ≤ phdr.pFilesz

/-- The range of addresses that a library needs. -/
theorem WellFormed.loadSize (h : r.WellFormed c) {size minVaddr : Nat}
    (hsize : phdrTableGetLoadSize c r.loads = (size, minVaddr)) :
    minVaddr % PAGE_SIZE = 0 ∧ size % PAGE_SIZE = 0 ∧ minVaddr + size < space c ∧
    ∀ phdr ∈ r.loads, minVaddr ≤ phdr.pVaddr ∧
      pageUp (phdr.pVaddr + phdr.pMemsz) ≤ minVaddr + size := by
  have hspace : PAGE_SIZE < space c := by cases c <;> decide
  have hrange : (0 : Nat) + (PAGE_SIZE - 1) < space c := by
    simp only [PAGE_SIZE] at *
    omega
  obtain ⟨hall, -, -, hfits⟩ :
      (∀ phdr ∈ r.loads, (r.loads.foldl (extend c) (space c - 1, 0)).1 ≤ phdr.pVaddr ∧
        phdr.pVaddr + phdr.pMemsz ≤ (r.loads.foldl (extend c) (space c - 1, 0)).2) ∧ _ ∧ _ ∧
      (r.loads.foldl (extend c) (space c - 1, 0)).2 + (PAGE_SIZE - 1) < space c :=
    foldl_extend h.memory_fits hrange
  rw [phdrTableGetLoadSize] at hsize
  rcases hloads : r.loads with _ | ⟨phdr, phdrs⟩
  · rw [hloads] at hsize
    simp only [List.foldl_nil, if_true, pageEnd, addr, pageStart, pageOffset, Prod.mk.injEq] at hsize
    obtain ⟨rfl, rfl⟩ := hsize
    cases c <;> exact ⟨by decide, by decide, by decide, List.forall_mem_nil _⟩
  · have hne : r.loads ≠ [] := by simp [hloads]
    obtain ⟨hlow, hhigh⟩ := hall phdr (hloads ▸ .head _)
    rw [if_neg hne] at hsize
    rw [← hloads]
    generalize r.loads.foldl (extend c) (space c - 1, 0) = range at *
    have hend : pageEnd c range.2 = pageUp range.2 := pageEnd_eq hfits
    have hle : pageStart range.1 ≤ pageUp range.2 := pageStart_mono (by omega)
    have hlt : pageUp range.2 < space c := Nat.lt_of_le_of_lt (pageUp_le _) hfits
    have hsub : addr c (pageEnd c range.2 + (space c - pageStart range.1)) =
        pageUp range.2 - pageStart range.1 := by
      have hsum : pageEnd c range.2 + (space c - pageStart range.1) =
          pageUp range.2 - pageStart range.1 + space c := by omega
      rw [hsum, addr, Nat.add_mod_right, Nat.mod_eq_of_lt (by omega)]
    rw [hsub, Prod.mk.injEq] at hsize
    obtain ⟨rfl, rfl⟩ := hsize
    rw [Nat.add_sub_cancel' hle]
    refine ⟨pageStart_mod _, ?_, hlt, fun other hother => ?_⟩
    · exact Nat.mod_eq_zero_of_dvd (Nat.dvd_sub (Nat.dvd_of_mod_eq_zero (pageUp_mod _))
        (Nat.dvd_of_mod_eq_zero (pageStart_mod _)))
    · obtain ⟨hlow, hhigh⟩ := hall other hother
      exact ⟨(pageStart_le _).trans hlow, pageUp_mono hhigh⟩

/-- Where a segment gets to, for a range that begins at `start`. -/
theorem WellFormed.start_eq {start minVaddr : Nat} (hmin : minVaddr ≤ phdr.pVaddr)
    (hfits : start + (phdr.pVaddr - minVaddr) < space c) (hspace : minVaddr ≤ space c) :
    phdr.start c (addr c (start + (space c - minVaddr))) = start + (phdr.pVaddr - minVaddr) := by
  have hsum : phdr.pVaddr + (start + (space c - minVaddr)) =
      start + (phdr.pVaddr - minVaddr) + space c := by omega
  rw [Phdr.start, addr, addr, Nat.add_mod_mod, hsum, Nat.add_mod_right, Nat.mod_eq_of_lt hfits]

section
variable {start size minVaddr : Nat} (h : r.WellFormed c)
  (hsize : phdrTableGetLoadSize c r.loads = (size, minVaddr)) (hstart : start % PAGE_SIZE = 0)
  (hspace : start + size + (PAGE_SIZE - 1) < space c)
include h hsize hstart hspace

/-- The segments in a range that was reserved for them. -/
theorem WellFormed.loadable (hphdr : phdr ∈ r.loads) :
    phdr.Loadable c (addr c (start + (space c - minVaddr))) ∧
      phdr.start c (addr c (start + (space c - minVaddr))) + minVaddr = start + phdr.pVaddr ∧
      phdr.pages c (addr c (start + (space c - minVaddr))) ⊆ Set.Ico start (start + size) := by
  obtain ⟨hminAligned, hsizeAligned, htop, hall⟩ := h.loadSize hsize
  obtain ⟨hmin, hend⟩ := hall phdr hphdr
  obtain ⟨d, hd⟩ := Nat.exists_eq_add_of_le hmin
  have hpageUp : pageUp (start + d + phdr.pMemsz) ≤ start + size := by
    rw [Nat.add_assoc, pageUp_add hstart]
    rw [hd, Nat.add_assoc, pageUp_add hminAligned] at hend
    omega
  have hpos : start + d + phdr.pMemsz + (PAGE_SIZE - 1) < space c := by
    have hle := le_pageUp (start + d + phdr.pMemsz)
    omega
  have heq : phdr.start c (addr c (start + (space c - minVaddr))) = start + d := by
    rw [start_eq hmin (by omega) (by omega), hd, Nat.add_sub_cancel_left]
  refine ⟨⟨h.filesz_le phdr hphdr, ?_, heq ▸ hpos, h.file_fits phdr hphdr, h.zeros phdr hphdr⟩,
    by omega, fun x hx => ?_⟩
  · rw [heq, ← h.congruent phdr hphdr, hd, pageOffset_add hstart, pageOffset_add hminAligned]
  · rw [Phdr.pages, heq, pageStart_add hstart] at hx
    exact ⟨(Nat.le_add_right _ _).trans hx.1, Nat.lt_of_lt_of_le hx.2 hpageUp⟩

/-- The pages of two segments are different. -/
theorem WellFormed.disjoint :
    r.loads.Pairwise fun a b => ∀ x ∈ a.pages c (addr c (start + (space c - minVaddr))),
      x ∉ b.pages c (addr c (start + (space c - minVaddr))) := by
  refine h.ascending.imp_of_mem fun {a b} ha hb hlt x hx hx' => ?_
  obtain ⟨-, hstartA, -⟩ := h.loadable hsize hstart hspace ha
  obtain ⟨-, hstartB, -⟩ := h.loadable hsize hstart hspace hb
  obtain ⟨hminAligned, -⟩ := h.loadSize hsize
  have hendA : minVaddr + pageUp (a.start c (addr c (start + (space c - minVaddr))) + a.pMemsz) =
      start + pageUp (a.pVaddr + a.pMemsz) := by
    rw [← pageUp_add hminAligned, ← pageUp_add hstart]
    exact congrArg pageUp (by omega)
  have hpageB : minVaddr + pageStart (b.start c (addr c (start + (space c - minVaddr)))) =
      start + pageStart b.pVaddr := by
    rw [← pageStart_add hminAligned, ← pageStart_add hstart]
    exact congrArg pageStart (by omega)
  have hbelow := hx.2
  have habove := hx'.1
  omega

/-- **The segments of a library** are loaded into a range that was reserved for them. -/
theorem WellFormed.loadSegments
    (hzeros : k.pagesize ≠ PAGE_SIZE → ∀ x ∈ Set.Ico start (start + size), s x = .byte 0) :
    ∃ ok s', r.loadSegments c k (addr c (start + (space c - minVaddr))) r.loads s = some (ok, s') ∧
      (∀ x ∉ Set.Ico start (start + size), s' x = s x) ∧
      (ok = true → ∀ phdr ∈ r.loads,
        r.HasImage c (addr c (start + (space c - minVaddr))) phdr s') := by
  obtain ⟨ok, s', hrun, hkept, himages⟩ := loadSegments_placed h.length
    (h.disjoint hsize hstart hspace) (s := s) (k := k) fun phdr hphdr =>
      have hloadable := h.loadable hsize hstart hspace hphdr
      ⟨hloadable.1, fun hpagesize x hx => hzeros hpagesize x (hloadable.2.2 hx)⟩
  refine ⟨ok, s', hrun, fun x hx => hkept x fun phdr hphdr hpages => hx ?_, himages⟩
  exact (h.loadable hsize hstart hspace hphdr).2.2 hpages

end

/-! ## The program headers -/

/-- A number can be read where there are bytes. -/
theorem readMemory_eq_some {a n : Nat} (h : s.HasBytes a n) : ∃ v, readMemory s a n = some v := by
  have hcells : ∀ l : List Nat, (∀ i ∈ l, (s (a + i)).isByte = true) →
      ∃ bytes, l.mapM (fun i => (s (a + i)).byte?) = some bytes := by
    intro l hl
    induction l with
    | nil => exact ⟨[], rfl⟩
    | cons i l ih =>
      obtain ⟨hi, hl⟩ := List.forall_mem_cons.mp hl
      obtain ⟨bytes, hbytes⟩ := ih hl
      rw [List.mapM_cons, hbytes]
      cases hcell : s (a + i) with
      | byte b => exact ⟨b :: bytes, rfl⟩
      | _ => rw [hcell] at hi; cases hi
  obtain ⟨bytes, hbytes⟩ := hcells (List.range n) fun i hi => h i (List.mem_range.mp hi)
  exact ⟨Codec.leNat bytes, congrArg (Option.map Codec.leNat) hbytes⟩

/-- The program headers are looked for in what is mapped. -/
theorem WellFormed.findPhdr (h : r.WellFormed c)
    (himages : ∀ phdr ∈ r.loads, r.HasImage c loadBias phdr s) :
    ∃ result, r.findPhdr c loadBias s = some result ∧
      ∀ loaded ∈ result, r.checkPhdr c loadBias loaded = true := by
  have hchecked (loaded : Nat) :
      ∀ x ∈ if r.checkPhdr c loadBias loaded then some loaded else none,
        r.checkPhdr c loadBias x = true := by
    intro x hx
    split at hx
    · next hcheck => exact Option.some.inj hx ▸ hcheck
    · cases hx
  rw [ElfReader.findPhdr]
  split
  · exact ⟨_, rfl, hchecked _⟩
  · split
    · exact ⟨none, rfl, fun _ h => nomatch h⟩
    · next phdr hhead =>
      have hmem : phdr ∈ r.loads := List.mem_of_head? hhead
      split
      · next hoffset =>
        have hheader := h.header phdr hmem hoffset
        have hfilesz := h.filesz_le phdr hmem
        have hbytes : s.HasBytes (addr c (loadBias + phdr.pVaddr) + posPhoff c) c.word := by
          intro i hi
          have himage := himages phdr hmem (posPhoff c + i) (by omega)
          rw [Phdr.start, Nat.add_comm phdr.pVaddr, ← Nat.add_assoc] at himage
          rw [himage]
          rfl
        obtain ⟨offset, hoffset⟩ := readMemory_eq_some hbytes
        dsimp only
        rw [hoffset]
        exact ⟨_, rfl, hchecked _⟩
      · exact ⟨none, rfl, fun _ h => nomatch h⟩

end ElfReader

/-! ## The whole library -/

/-- The addresses that the caller reserved. -/
def AddressSpaceParams.range (params : AddressSpaceParams) : Set Nat :=
  Set.Ico params.startAddr (params.startAddr + params.reservedSize)

/-- A caller reserves pages, with zeros in them where they are not mapped again. -/
structure AddressSpaceParams.Documented (c : ElfClass) (k : Kernel) (params : AddressSpaceParams)
    (s : AddressSpace) : Prop where
  aligned : params.startAddr % PAGE_SIZE = 0
  fits : params.startAddr + params.reservedSize + (PAGE_SIZE - 1) < space c
  zeros : k.pagesize ≠ PAGE_SIZE → ∀ x ∈ params.range, s x = .byte 0

/-- The addresses of a loaded library. -/
def Reservation.range (reservation : Reservation) : Set Nat :=
  Set.Ico reservation.loadStart (reservation.loadStart + reservation.loadSize)

namespace ElfReader

/-- What there is after a reservation: the addresses of the library can be mapped again, and there
are zeros if they are not. -/
structure IsReserved (c : ElfClass) (k : Kernel) (r : ElfReader) (params : AddressSpaceParams)
    (s : AddressSpace) (reservation : Reservation) (s' : AddressSpace) : Prop where
  loadBias : ∃ minVaddr, phdrTableGetLoadSize c r.loads = (reservation.loadSize, minVaddr) ∧
    reservation.loadBias = addr c (reservation.loadStart + (space c - minVaddr))
  aligned : reservation.loadStart % PAGE_SIZE = 0
  fits : reservation.loadStart + reservation.loadSize + (PAGE_SIZE - 1) < space c
  zeros : k.pagesize ≠ PAGE_SIZE → ∀ x ∈ reservation.range, s' x = .byte 0
  free : ∀ x ∈ reservation.range, s x = .unmapped ∨ x ∈ params.range
  kept : ∀ x, s x ≠ .unmapped → s' x = s x
  exact_of_pagesize : k.pagesize = PAGE_SIZE → ∀ x ∉ reservation.range, s' x = s x

variable {params : AddressSpaceParams} {reservation : Reservation}

theorem WellFormed.reserveAddressSpace (h : r.WellFormed c) (hk : k.Documented c s)
    (hparams : params.Documented c k s)
    (hrun : r.reserveAddressSpace c k params s = some (reservation, s')) :
    r.IsReserved c k params s reservation s' := by
  obtain ⟨⟨size, minVaddr⟩, hsize⟩ : ∃ p, phdrTableGetLoadSize c r.loads = p := ⟨_, rfl⟩
  have hpages := (h.loadSize hsize).2.1
  rw [ElfReader.reserveAddressSpace, hsize] at hrun
  dsimp only at hrun
  split at hrun
  · cases hrun
  · split at hrun
    · split at hrun
      · cases hrun
      · -- new memory
        obtain ⟨⟨start, s₁⟩, hreserve, hresult⟩ := Option.map_eq_some_iff.mp hrun
        obtain ⟨rfl, rfl⟩ := Prod.mk.inj hresult
        have hreserved := hk.reserveAligned hpages hreserve
        refine ⟨⟨minVaddr, hsize, rfl⟩, hreserved.aligned, hreserved.fits, fun hpagesize x hx => ?_,
          fun x hx => .inl (hreserved.new x hx).1, hreserved.kept, hreserved.exact_of_pagesize⟩
        exact (hreserved.new x hx).2.trans (if_pos hpagesize)
    · next hle =>
      -- the addresses of the caller
      obtain ⟨rfl, rfl⟩ := Prod.mk.inj (Option.some.inj hrun)
      have hsub : Set.Ico params.startAddr (params.startAddr + size) ⊆ params.range :=
        Set.Ico_subset_Ico_right (by omega)
      have hfits := hparams.fits
      refine ⟨⟨minVaddr, hsize, rfl⟩, hparams.aligned, ?_, fun hpagesize x hx =>
        hparams.zeros hpagesize x (hsub hx), fun x hx => .inr (hsub hx), fun _ _ => rfl,
        fun _ _ _ => rfl⟩
      show params.startAddr + size + (PAGE_SIZE - 1) < space c
      omega

/-- A library in memory. -/
structure Loaded (c : ElfClass) (k : Kernel) (r : ElfReader) (s : AddressSpace)
    (reservation : Reservation) (loadedPhdr : Nat) (s' : AddressSpace) : Prop where
  inside : ∀ phdr ∈ r.loads, phdr.pages c reservation.loadBias ⊆ reservation.range
  distance : ∀ a ∈ r.loads, ∀ b ∈ r.loads,
    a.start c reservation.loadBias + b.pVaddr = b.start c reservation.loadBias + a.pVaddr
  images : ∀ phdr ∈ r.loads, r.HasImage c reservation.loadBias phdr s'
  phdrs : loadedPhdr + r.phdrTable.length * c.sizeofPhdr < space c →
    ∃ phdr ∈ r.loads, phdr.start c reservation.loadBias ≤ loadedPhdr ∧
      loadedPhdr + r.phdrTable.length * c.sizeofPhdr ≤
        phdr.start c reservation.loadBias + phdr.pFilesz
  exact_of_pagesize : k.pagesize = PAGE_SIZE → ∀ x ∉ reservation.range, s' x = s x

end ElfReader
end McpeLauncher.Linker
