import McpeLauncher.Axml.Chunks

/-!
# Termination of the parser

The loops follow the size of a chunk, which may be `0`. Without such chunks every loop ends: the
range of `validate` gets shorter, and the later loops go through a range that was validated.
-/

namespace McpeLauncher.Axml

/-- No chunk that passes the checks where `validate` comes to it, other than an XML chunk, has the
size `0`. -/
def NoEmptyChunk (m : Mem) (p e : Nat) : Prop :=
  AllVisited m p e fun q f =>
    Passes m q f → (chunkHeader m q).type ≠ ChunkHeader.typeXml → (chunkHeader m q).size ≠ 0

/-- The calls of `next` reach `false` or an exception after finitely many calls, each of which
ends. -/
inductive Finishes (m : Mem) (rangeEnd : Nat) : AxmlParser → Prop
  | done {s s' : AxmlParser} (fuel : Nat)
      (h : AxmlParser.next m rangeEnd fuel s = some (.ok (false, s'))) : Finishes m rangeEnd s
  | throws {s : AxmlParser} {x : AxmlError} (fuel : Nat)
      (h : AxmlParser.next m rangeEnd fuel s = some (.error x)) : Finishes m rangeEnd s
  | more {s s' : AxmlParser} (fuel : Nat)
      (h : AxmlParser.next m rangeEnd fuel s = some (.ok (true, s')))
      (hrest : Finishes m rangeEnd s') : Finishes m rangeEnd s

/-- Whatever is behind the buffer, the constructor ends, and so do the calls of `next` if it accepts
the file. -/
def Terminates (bytes : List UInt8) : Prop :=
  ∀ m, Holds bytes m →
    (∃ fuel r, (axmlFile m bytes.length fuel).2 = some r) ∧
    ∀ fuel file, (axmlFile m bytes.length fuel).2 = some (.ok file) →
      Finishes m file.rangeEnd (AxmlParser.ofFile file)

section Validate

variable {m : Mem} {p e q f : Nat}

theorem Ends.validates (h : Ends m p e (.ok ())) : Validates m p e := by
  obtain ⟨n, hn⟩ := h
  exact validates_of_validate (hn n (Nat.le_refl n))

/-- The induction is on the length of the range, which every iteration and every recursive call
shortens: the inside of an XML chunk that is accepted is not empty before its header. -/
theorem NoEmptyChunk.ends (h : NoEmptyChunk m p e) : ∃ r, Ends m p e r := by
  induction hn : e - p using Nat.strong_induction_on generalizing p e with
  | _ n ih =>
    by_cases hp : p = e
    · exact hp ▸ ⟨_, (Validates.done p).ends⟩
    obtain hpass | ⟨hpass, htype⟩ | ⟨hpass, htype⟩ := chunk_cases m p e
    · refine ⟨.error (.outOfRange "Invalid chunk size"), .of_succ 0 fun fuel _ => ?_⟩
      rw [validate_of_not_passes fuel hp hpass]
    · have hsize := h p e (.here hp) hpass htype
      have hlen : p + 8 ≤ e := hpass.header_le
      obtain ⟨r, hr⟩ := ih _ (by omega) (AllVisited.chunk h hp hpass htype) rfl
      exact ⟨r, .chunk hp hpass htype hr⟩
    · have hlen : p + 8 ≤ e := hpass.header_le
      have hheader : 8 ≤ (chunkHeader m p).headerSize := hpass.1
      have hsize := hpass.2.2
      obtain ⟨r, hr⟩ := ih _ (by omega) (AllVisited.inside h hp hpass htype) rfl
      cases r with
      | error x => exact ⟨_, .xml_error hp hpass htype hr⟩
      | ok u =>
        have hle := hr.validates.le
        obtain ⟨r', hr'⟩ := ih _ (by omega) (AllVisited.xml h hp hpass htype hr.validates) rfl
        exact ⟨r', .xml hp hpass htype hr hr'⟩

/-- A chunk of size `0` is come to again and again. -/
theorem validate_of_empty (hp : p ≠ e) (hpass : Passes m p e)
    (htype : (chunkHeader m p).type ≠ ChunkHeader.typeXml) (hsize : (chunkHeader m p).size = 0)
    (fuel : Nat) : (validate m fuel p e).2 = none := by
  induction fuel with
  | zero => rfl
  | succ fuel ih =>
    rw [validate_of_chunk fuel hp hpass htype, hsize]
    exact ih

/-- If `validate` does not end from a chunk that it comes to, it does not end. -/
theorem Visits.validate_eq_none (h : Visits m p e q f)
    (hq : ∀ fuel, (validate m fuel q f).2 = none) (fuel : Nat) : (validate m fuel p e).2 = none := by
  induction h generalizing fuel with
  | here => exact hq fuel
  | chunk hp hpass htype _ ih =>
    cases fuel with
    | zero => rfl
    | succ fuel =>
      rw [validate_of_chunk fuel hp hpass htype]
      exact ih hq fuel
  | inside hp hpass htype _ ih =>
    cases fuel with
    | zero => rfl
    | succ fuel =>
      rw [validate_of_xml fuel hp hpass htype, Outcome.examine_snd]
      exact Outcome.bind_snd_of_none (ih hq fuel)
  | xml hp hpass htype hin _ ih =>
    cases fuel with
    | zero => rfl
    | succ fuel =>
      rw [validate_of_xml fuel hp hpass htype, Outcome.examine_snd]
      rcases hin.validate_ne_error fuel with hin | hin
      · exact Outcome.bind_snd_of_none hin
      · rw [Outcome.bind_snd_of_ok hin]
        exact ih hq fuel

/-- **`validate` ends exactly if it comes to no chunk of size `0`.** -/
theorem ends_iff_noEmptyChunk : (∃ r, Ends m p e r) ↔ NoEmptyChunk m p e := by
  constructor
  · rintro ⟨r, n, hn⟩ q f hv hpass htype hsize
    have hnone := hv.validate_eq_none (validate_of_empty hv.ne hpass htype hsize) n
    rw [hn n (Nat.le_refl n)] at hnone
    cases hnone
  · exact NoEmptyChunk.ends

theorem Validates.findStringPool_ends (h : Validates m p e) :
    ∃ n, ∀ fuel, n ≤ fuel → ∃ r, (findStringPool m fuel p e).2 = some r := by
  apply h.chunks (P := fun p => ∃ n, ∀ fuel, n ≤ fuel → ∃ r, (findStringPool m fuel p e).2 = some r)
  · refine ⟨1, fun fuel hfuel => ?_⟩
    obtain ⟨fuel, rfl⟩ : ∃ k, fuel = k + 1 := ⟨fuel - 1, by omega⟩
    exact ⟨.ok none, by rw [findStringPool, if_pos rfl]; rfl⟩
  · rintro p hp - ⟨n, hn⟩
    refine ⟨n + 1, fun fuel hfuel => ?_⟩
    obtain ⟨fuel, rfl⟩ : ∃ k, fuel = k + 1 := ⟨fuel - 1, by omega⟩
    simp only [findStringPool, if_neg hp, Outcome.examine_snd]
    split
    · split
      · exact ⟨_, rfl⟩
      · exact ⟨_, rfl⟩
    · exact hn fuel (by omega)

end Validate

section Next

variable {m : Mem} {e : Nat} {s : AxmlParser}

open AxmlParser

/-- A chunk without an event is skipped within the call. -/
theorem Finishes.skip (hp : (incrementIterator m e s).rangeIt ≠ e)
    (hev : event m (incrementIterator m e s).rangeIt = none)
    (h : Finishes m e (incrementIterator m e s)) : Finishes m e s := by
  have hnext (fuel : Nat) : next m e (fuel + 1) s = next m e fuel (incrementIterator m e s) := by
    simp only [next, if_neg hp, hev]
  cases h with
  | done fuel h => exact .done (fuel + 1) ((hnext fuel).trans h)
  | throws fuel h => exact .throws (fuel + 1) ((hnext fuel).trans h)
  | more fuel h hrest => exact .more (fuel + 1) ((hnext fuel).trans h) hrest

/-- The calls of `next` go through a validated range. -/
theorem Validates.finishes {p : Nat} (h : Validates m p e) (s : AxmlParser)
    (hs : (incrementIterator m e s).rangeIt = p) : Finishes m e s := by
  revert s
  apply h.chunks (P := fun p => ∀ s : AxmlParser, (incrementIterator m e s).rangeIt = p →
    Finishes m e s)
  · intro s hs
    have hnext : next m e 1 s = some (.ok (false, incrementIterator m e s)) := by
      simp only [next, if_pos hs]
    exact .done 1 hnext
  · intro p hp _ ih s hs
    have hp' : (incrementIterator m e s).rangeIt ≠ e := hs ▸ hp
    have hfirst := incrementIterator_firstEl m e s
    cases hev : event m (incrementIterator m e s).rangeIt with
    | none =>
      apply Finishes.skip hp' hev
      apply ih
      rw [incrementIterator_rangeIt hfirst hp', hs]
    | some r =>
      cases r with
      | error x =>
        have hnext : next m e 1 s = some (.error x) := by
          simp only [next, if_neg hp', hev]
        exact .throws 1 hnext
      | ok evType =>
        have hnext : next m e 1 s =
            some (.ok (true, { incrementIterator m e s with evType := some evType })) := by
          simp only [next, if_neg hp', hev]
        apply Finishes.more 1 hnext
        apply ih
        have hit := incrementIterator_rangeIt (m := m) (e := e)
          (s := { incrementIterator m e s with evType := some evType }) hfirst hp'
        exact hit.trans (hs ▸ rfl)

end Next

section File

variable {m : Mem} {size fuel : Nat} {file : AxmlFile}

theorem NoEmptyChunk.axmlFile_ends (h : NoEmptyChunk m 0 size) (hsize : size ≠ 0) :
    ∃ fuel r, (axmlFile m size fuel).2 = some r := by
  obtain ⟨r, n, hn⟩ := h.ends
  cases r with
  | error x => exact ⟨n, _, Outcome.bind_snd_of_error (hn n (Nat.le_refl n))⟩
  | ok u =>
    have hval := validates_of_validate (hn n (Nat.le_refl n))
    by_cases htype : (chunkHeader m 0).type = ChunkHeader.typeXml
    · obtain ⟨n', hn'⟩ := (hval.document hsize htype).findStringPool_ends
      obtain ⟨r, hr⟩ := hn' (max n n') (Nat.le_max_right n n')
      refine ⟨max n n', ?_⟩
      rw [axmlFile, Outcome.bind_snd_of_ok (hn _ (Nat.le_max_left n n')), Outcome.examine_snd]
      simp only [htype, ne_eq, not_true_eq_false, if_false]
      cases r with
      | error x => exact ⟨_, Outcome.bind_snd_of_error hr⟩
      | ok pool =>
        rw [Outcome.bind_snd_of_ok hr]
        exact ⟨_, rfl⟩
    · refine ⟨n, ?_⟩
      rw [axmlFile, Outcome.bind_snd_of_ok (hn n (Nat.le_refl n)), Outcome.examine_snd]
      simp only [htype, ne_eq, not_false_eq_true, if_true]
      exact ⟨_, rfl⟩

theorem NoEmptyChunk.of_holds {bytes : List UInt8} {m' : Mem} (hm : Holds bytes m)
    (hm' : Holds bytes m') (h : NoEmptyChunk m 0 bytes.length) :
    NoEmptyChunk m' 0 bytes.length := by
  intro q f hv hpass
  obtain ⟨hv', hf⟩ := hv.congr hm' hm (Nat.le_refl _)
  obtain ⟨heq, hpass'⟩ := hpass.congr hm' hm hf
  rw [heq]
  exact h q f hv' hpass'

end File

/-- An XML chunk that holds an empty chunk. -/
def emptyChunk : List UInt8 := [3, 0, 8, 0, 16, 0, 0, 0, 0, 0, 8, 0, 0, 0, 0, 0]

/-- Behind an empty buffer the search for the string pool finds anything. -/
theorem findStringPool_emptyChunk (fuel : Nat) :
    (findStringPool (memOf emptyChunk) fuel 8 16).2 = none := by
  induction fuel with
  | zero => rfl
  | succ fuel ih => exact ih

/-- **Exactly when the parser terminates**: the buffer is not empty, and `validate` comes to no
chunk that passes its checks with the size `0`, XML chunks apart. -/
theorem terminates_iff (bytes : List UInt8) :
    Terminates bytes ↔ bytes ≠ [] ∧ NoEmptyChunk (memOf bytes) 0 bytes.length := by
  constructor
  · intro h
    constructor
    · rintro rfl
      obtain ⟨⟨fuel, r, hr⟩, -⟩ := h (memOf emptyChunk) fun i hi => absurd hi (Nat.not_lt_zero i)
      cases fuel with
      | zero => cases hr
      | succ fuel =>
        have hheader : chunkHeader (memOf emptyChunk) 0 = ⟨3, 8, 16⟩ := by decide +kernel
        have hnone : (axmlFile (memOf emptyChunk) 0 (fuel + 1)).2 = none := by
          rw [axmlFile, validate_of_eq, Outcome.bind_snd_of_ok rfl, Outcome.examine_snd, hheader]
          exact Outcome.bind_snd_of_none (findStringPool_emptyChunk (fuel + 1))
        exact absurd (hnone.symm.trans hr) (by simp)
    · obtain ⟨⟨fuel, r, hr⟩, -⟩ := h (memOf bytes) (holds_memOf bytes)
      intro q f hv hpass htype hsize
      have hnone := hv.validate_eq_none (validate_of_empty hv.ne hpass htype hsize) fuel
      rw [axmlFile, Outcome.bind_snd_of_none hnone] at hr
      cases hr
  · rintro ⟨hne, hcond⟩ m hm
    have hsize : bytes.length ≠ 0 := by simpa using hne
    refine ⟨(hcond.of_holds (holds_memOf bytes) hm).axmlFile_ends hsize, ?_⟩
    intro fuel file hfile
    obtain ⟨hval, htype, hbegin, hend⟩ := validates_of_axmlFile hfile
    rw [hend]
    exact (hval.document hsize htype).finishes _ hbegin

/-- The constructor does not end on an XML chunk that holds an empty chunk. -/
theorem emptyChunk_loops (fuel : Nat) : (axmlFile (memOf emptyChunk) 16 fuel).2 = none := by
  have hv : Visits (memOf emptyChunk) 0 16 8 16 :=
    .inside (by decide) (by decide +kernel) (by decide +kernel) (.here (by decide))
  have hnone := hv.validate_eq_none
    (validate_of_empty (by decide) (by decide +kernel) (by decide +kernel) (by decide +kernel)) fuel
  rw [axmlFile, Outcome.bind_snd_of_none hnone]

theorem not_terminates_emptyChunk : ¬Terminates emptyChunk := by
  intro h
  obtain ⟨⟨fuel, r, hr⟩, -⟩ := h (memOf emptyChunk) (holds_memOf emptyChunk)
  exact absurd ((emptyChunk_loops fuel).symm.trans hr) (by simp)

end McpeLauncher.Axml
