import McpeLauncher.Axml.AxmlParser

/-!
# Sequences of chunks

Which ranges `validate` accepts and which chunks it comes to, as relations on the memory. Both are
decided by the bytes of the buffer: a chunk that passes the checks has its header in its range.
-/

namespace McpeLauncher.Axml

/-- The chunk at `p` passes the checks of `validate` in a range that ends at `e`. -/
def Passes (m : Mem) (p e : Nat) : Prop :=
  sizeofChunkHeader ≤ (chunkHeader m p).headerSize ∧ p + (chunkHeader m p).headerSize ≤ e ∧
    p + (chunkHeader m p).size ≤ e

instance (m : Mem) (p e : Nat) : Decidable (Passes m p e) := inferInstanceAs (Decidable (_ ∧ _ ∧ _))

/-- The range from `p` to `e` is a sequence of chunks that pass, and so is the inside of its XML
chunks. -/
inductive Validates (m : Mem) : Nat → Nat → Prop
  | done (e : Nat) : Validates m e e
  | chunk {p e : Nat} (hp : p ≠ e) (hpass : Passes m p e)
      (htype : (chunkHeader m p).type ≠ ChunkHeader.typeXml)
      (hrest : Validates m (p + (chunkHeader m p).size) e) : Validates m p e
  | xml {p e : Nat} (hp : p ≠ e) (hpass : Passes m p e)
      (htype : (chunkHeader m p).type = ChunkHeader.typeXml)
      (hin : Validates m (p + (chunkHeader m p).headerSize) (p + (chunkHeader m p).size))
      (hrest : Validates m (p + (chunkHeader m p).size) e) : Validates m p e

/-- `Visits m p e q f`: while it validates the range from `p` to `e`, `validate` comes to the chunk
at `q` in a range that ends at `f`. -/
inductive Visits (m : Mem) : Nat → Nat → Nat → Nat → Prop
  | here {p e : Nat} (hp : p ≠ e) : Visits m p e p e
  | chunk {p e q f : Nat} (hp : p ≠ e) (hpass : Passes m p e)
      (htype : (chunkHeader m p).type ≠ ChunkHeader.typeXml)
      (hrest : Visits m (p + (chunkHeader m p).size) e q f) : Visits m p e q f
  | inside {p e q f : Nat} (hp : p ≠ e) (hpass : Passes m p e)
      (htype : (chunkHeader m p).type = ChunkHeader.typeXml)
      (hin : Visits m (p + (chunkHeader m p).headerSize) (p + (chunkHeader m p).size) q f) :
      Visits m p e q f
  | xml {p e q f : Nat} (hp : p ≠ e) (hpass : Passes m p e)
      (htype : (chunkHeader m p).type = ChunkHeader.typeXml)
      (hin : Validates m (p + (chunkHeader m p).headerSize) (p + (chunkHeader m p).size))
      (hrest : Visits m (p + (chunkHeader m p).size) e q f) : Visits m p e q f

/-- `P` holds of each chunk that `validate` comes to. -/
def AllVisited (m : Mem) (p e : Nat) (P : Nat → Nat → Prop) : Prop :=
  ∀ q f, Visits m p e q f → P q f

section AllVisited

variable {m : Mem} {p e : Nat} {P : Nat → Nat → Prop}

theorem AllVisited.chunk (h : AllVisited m p e P) (hp : p ≠ e) (hpass : Passes m p e)
    (htype : (chunkHeader m p).type ≠ ChunkHeader.typeXml) :
    AllVisited m (p + (chunkHeader m p).size) e P :=
  fun q f hv => h q f (.chunk hp hpass htype hv)

theorem AllVisited.inside (h : AllVisited m p e P) (hp : p ≠ e) (hpass : Passes m p e)
    (htype : (chunkHeader m p).type = ChunkHeader.typeXml) :
    AllVisited m (p + (chunkHeader m p).headerSize) (p + (chunkHeader m p).size) P :=
  fun q f hv => h q f (.inside hp hpass htype hv)

theorem AllVisited.xml (h : AllVisited m p e P) (hp : p ≠ e) (hpass : Passes m p e)
    (htype : (chunkHeader m p).type = ChunkHeader.typeXml)
    (hin : Validates m (p + (chunkHeader m p).headerSize) (p + (chunkHeader m p).size)) :
    AllVisited m (p + (chunkHeader m p).size) e P :=
  fun q f hv => h q f (.xml hp hpass htype hin hv)

end AllVisited

section Visits

variable {m : Mem} {p e q f r g : Nat}

theorem Visits.ne (h : Visits m p e q f) : q ≠ f := by
  induction h with
  | here hp => exact hp
  | chunk _ _ _ _ ih => exact ih
  | inside _ _ _ _ ih => exact ih
  | xml _ _ _ _ _ ih => exact ih

theorem Visits.trans (h : Visits m p e q f) (h' : Visits m q f r g) : Visits m p e r g := by
  induction h with
  | here => exact h'
  | chunk hp hpass htype _ ih => exact .chunk hp hpass htype (ih h')
  | inside hp hpass htype _ ih => exact .inside hp hpass htype (ih h')
  | xml hp hpass htype hin _ ih => exact .xml hp hpass htype hin (ih h')

end Visits

namespace AxmlParser

theorem incrementIterator_firstEl (m : Mem) (e : Nat) (s : AxmlParser) :
    (incrementIterator m e s).firstEl = false := by
  unfold incrementIterator
  split
  · rfl
  · split
    · simpa using ‹¬s.firstEl = true›
    · simpa using ‹¬s.firstEl = true›

/-- From a chunk the iterator goes on to the next one. -/
theorem incrementIterator_rangeIt {m : Mem} {e : Nat} {s : AxmlParser}
    (hfirst : s.firstEl = false) (hp : s.rangeIt ≠ e) :
    (incrementIterator m e s).rangeIt = s.rangeIt + (chunkHeader m s.rangeIt).size := by
  rw [incrementIterator, if_neg (by simp [hfirst]), if_pos hp]

end AxmlParser

namespace Outcome

variable {α β : Type} {x : Outcome α} {f : α → Outcome β} {b : β}

theorem examine_snd (p n : Nat) (x : Outcome α) : (x.examine p n).2 = x.2 := rfl

theorem bind_of_ok {a : α} (h : x.2 = some (.ok a)) : x.bind f = (x.1 ++ (f a).1, (f a).2) := by
  simp only [bind, h]

theorem bind_snd_of_ok {a : α} (h : x.2 = some (.ok a)) : (x.bind f).2 = (f a).2 := by
  rw [bind_of_ok h]

theorem bind_snd_of_error {e : AxmlError} (h : x.2 = some (.error e)) :
    (x.bind f).2 = some (.error e) := by
  simp only [bind, h]

theorem bind_snd_of_none (h : x.2 = none) : (x.bind f).2 = none := by
  simp only [bind, h]

theorem bind_ok (h : (x.bind f).2 = some (.ok b)) :
    ∃ a, x.2 = some (.ok a) ∧ (f a).2 = some (.ok b) := by
  unfold bind at h
  split at h
  case h_1 => cases h
  case h_2 => cases h
  case h_3 a ha => exact ⟨a, ha, h⟩

/-- What a sequence examines is examined by its first part, or by the second one if there is one. -/
theorem mem_bind {r : Nat × Nat} (h : r ∈ (x.bind f).1) :
    r ∈ x.1 ∨ ∃ a, x.2 = some (.ok a) ∧ r ∈ (f a).1 := by
  unfold bind at h
  split at h
  case h_1 => exact .inl h
  case h_2 => exact .inl h
  case h_3 a ha => exact (List.mem_append.mp h).imp_right fun h => ⟨a, ha, h⟩

theorem mem_bind_left {r : Nat × Nat} (h : r ∈ x.1) : r ∈ (x.bind f).1 := by
  unfold bind
  split
  case h_1 => exact h
  case h_2 => exact h
  case h_3 => exact List.mem_append_left _ h

end Outcome

section Validate

variable {m : Mem} {p e q f : Nat}

/-! One iteration of `validate`, by what the chunk is. -/

theorem validate_of_eq (m : Mem) (fuel e : Nat) : validate m (fuel + 1) e e = .ret () := by
  rw [validate, if_pos rfl]

theorem validate_of_not_passes (fuel : Nat) (hp : p ≠ e) (h : ¬Passes m p e) :
    validate m (fuel + 1) p e =
      ([(p, sizeofChunkHeader)], some (.error (.outOfRange "Invalid chunk size"))) := by
  have hcheck : (chunkHeader m p).headerSize < sizeofChunkHeader ∨
      p + (chunkHeader m p).headerSize > e ∨ p + (chunkHeader m p).size > e := by
    unfold Passes at h
    omega
  rw [validate, if_neg hp, if_pos hcheck]
  rfl

theorem validate_of_chunk (fuel : Nat) (hp : p ≠ e) (h : Passes m p e)
    (htype : (chunkHeader m p).type ≠ ChunkHeader.typeXml) :
    validate m (fuel + 1) p e =
      .examine p sizeofChunkHeader (validate m fuel (p + (chunkHeader m p).size) e) := by
  have hcheck : ¬((chunkHeader m p).headerSize < sizeofChunkHeader ∨
      p + (chunkHeader m p).headerSize > e ∨ p + (chunkHeader m p).size > e) := by
    unfold Passes at h
    omega
  rw [validate, if_neg hp, if_neg hcheck, if_neg htype]

theorem validate_of_xml (fuel : Nat) (hp : p ≠ e) (h : Passes m p e)
    (htype : (chunkHeader m p).type = ChunkHeader.typeXml) :
    validate m (fuel + 1) p e =
      .examine p sizeofChunkHeader
        ((validate m fuel (p + (chunkHeader m p).headerSize) (p + (chunkHeader m p).size)).bind
          fun _ => validate m fuel (p + (chunkHeader m p).size) e) := by
  have hcheck : ¬((chunkHeader m p).headerSize < sizeofChunkHeader ∨
      p + (chunkHeader m p).headerSize > e ∨ p + (chunkHeader m p).size > e) := by
    unfold Passes at h
    omega
  rw [validate, if_neg hp, if_neg hcheck, if_pos htype]

/-- Every chunk is one of the three kinds. -/
theorem chunk_cases (m : Mem) (p e : Nat) :
    ¬Passes m p e ∨ (Passes m p e ∧ (chunkHeader m p).type ≠ ChunkHeader.typeXml) ∨
      (Passes m p e ∧ (chunkHeader m p).type = ChunkHeader.typeXml) := by
  by_cases hpass : Passes m p e
  · by_cases htype : (chunkHeader m p).type = ChunkHeader.typeXml
    · exact .inr (.inr ⟨hpass, htype⟩)
    · exact .inr (.inl ⟨hpass, htype⟩)
  · exact .inl hpass

theorem Validates.le (h : Validates m p e) : p ≤ e := by
  cases h with
  | done => exact Nat.le_refl _
  | chunk _ hpass => exact Nat.le_trans (Nat.le_add_right _ _) hpass.2.1
  | xml _ hpass => exact Nat.le_trans (Nat.le_add_right _ _) hpass.2.1

/-- What `validate` accepts is a sequence of chunks. -/
theorem validates_of_validate {fuel : Nat} (h : (validate m fuel p e).2 = some (.ok ())) :
    Validates m p e := by
  induction fuel generalizing p e with
  | zero => cases h
  | succ fuel ih =>
    by_cases hp : p = e
    · exact hp ▸ .done p
    obtain hpass | ⟨hpass, htype⟩ | ⟨hpass, htype⟩ := chunk_cases m p e
    · rw [validate_of_not_passes fuel hp hpass] at h
      cases h
    · rw [validate_of_chunk fuel hp hpass htype] at h
      exact .chunk hp hpass htype (ih h)
    · rw [validate_of_xml fuel hp hpass htype] at h
      obtain ⟨⟨⟩, hin, hrest⟩ := Outcome.bind_ok h
      exact .xml hp hpass htype (ih hin) (ih hrest)

/-- `validate` throws nothing on a sequence of chunks. -/
theorem Validates.validate_ne_error (h : Validates m p e) (fuel : Nat) :
    (validate m fuel p e).2 = none ∨ (validate m fuel p e).2 = some (.ok ()) := by
  induction h generalizing fuel with
  | done e =>
    cases fuel with
    | zero => exact .inl rfl
    | succ fuel => exact .inr (by rw [validate_of_eq]; rfl)
  | chunk hp hpass htype _ ih =>
    cases fuel with
    | zero => exact .inl rfl
    | succ fuel =>
      rw [validate_of_chunk fuel hp hpass htype]
      exact ih fuel
  | xml hp hpass htype _ _ ihin ih =>
    cases fuel with
    | zero => exact .inl rfl
    | succ fuel =>
      rw [validate_of_xml fuel hp hpass htype, Outcome.examine_snd]
      rcases ihin fuel with hin | hin
      · exact .inl (Outcome.bind_snd_of_none hin)
      · rw [Outcome.bind_snd_of_ok hin]
        exact ih fuel

/-- With enough fuel, `validate` ends with `r`. -/
def Ends (m : Mem) (p e : Nat) (r : Except AxmlError Unit) : Prop :=
  ∃ n, ∀ fuel, n ≤ fuel → (validate m fuel p e).2 = some r

/-- The iterations with at least one unit of fuel decide how `validate` ends. -/
theorem Ends.of_succ {r : Except AxmlError Unit} (n : Nat)
    (h : ∀ fuel, n ≤ fuel → (validate m (fuel + 1) p e).2 = some r) : Ends m p e r := by
  refine ⟨n + 1, fun fuel hfuel => ?_⟩
  cases fuel with
  | zero => omega
  | succ fuel => exact h fuel (by omega)

theorem Ends.chunk {r : Except AxmlError Unit} (hp : p ≠ e) (hpass : Passes m p e)
    (htype : (chunkHeader m p).type ≠ ChunkHeader.typeXml)
    (hrest : Ends m (p + (chunkHeader m p).size) e r) : Ends m p e r := by
  obtain ⟨n, hn⟩ := hrest
  refine .of_succ n fun fuel hfuel => ?_
  rw [validate_of_chunk fuel hp hpass htype]
  exact hn fuel hfuel

theorem Ends.xml {r : Except AxmlError Unit} (hp : p ≠ e) (hpass : Passes m p e)
    (htype : (chunkHeader m p).type = ChunkHeader.typeXml)
    (hin : Ends m (p + (chunkHeader m p).headerSize) (p + (chunkHeader m p).size) (.ok ()))
    (hrest : Ends m (p + (chunkHeader m p).size) e r) : Ends m p e r := by
  obtain ⟨n₁, hn₁⟩ := hin
  obtain ⟨n₂, hn₂⟩ := hrest
  refine .of_succ (max n₁ n₂) fun fuel hfuel => ?_
  rw [validate_of_xml fuel hp hpass htype, Outcome.examine_snd,
    Outcome.bind_snd_of_ok (hn₁ fuel (by omega))]
  exact hn₂ fuel (by omega)

theorem Ends.xml_error {x : AxmlError} (hp : p ≠ e) (hpass : Passes m p e)
    (htype : (chunkHeader m p).type = ChunkHeader.typeXml)
    (hin : Ends m (p + (chunkHeader m p).headerSize) (p + (chunkHeader m p).size) (.error x)) :
    Ends m p e (.error x) := by
  obtain ⟨n, hn⟩ := hin
  refine .of_succ n fun fuel hfuel => ?_
  rw [validate_of_xml fuel hp hpass htype, Outcome.examine_snd]
  exact Outcome.bind_snd_of_error (hn fuel hfuel)

/-- A sequence of chunks is accepted. -/
theorem Validates.ends (h : Validates m p e) : Ends m p e (.ok ()) := by
  induction h with
  | done e => exact .of_succ 0 fun fuel _ => by rw [validate_of_eq]; rfl
  | chunk hp hpass htype _ ih => exact .chunk hp hpass htype ih
  | xml hp hpass htype _ _ ihin ih => exact .xml hp hpass htype ihin ih

/-- The range of the chunks is a sequence by their sizes. -/
theorem Validates.chunks {P : Nat → Prop} (h : Validates m p e) (hend : P e)
    (hstep : ∀ p, p ≠ e → Passes m p e → P (p + (chunkHeader m p).size) → P p) : P p := by
  induction h with
  | done => exact hend
  | chunk hp hpass _ _ ih => exact hstep _ hp hpass (ih hend hstep)
  | xml hp hpass _ _ _ _ ih => exact hstep _ hp hpass (ih hend hstep)

/-- `validate` examines the chunks that it comes to. -/
theorem visits_of_mem {fuel : Nat} {r : Nat × Nat} (h : r ∈ (validate m fuel p e).1) :
    r.2 = sizeofChunkHeader ∧ ∃ f, Visits m p e r.1 f := by
  induction fuel generalizing p e with
  | zero => cases h
  | succ fuel ih =>
    by_cases hp : p = e
    · rw [hp, validate_of_eq] at h
      cases h
    obtain hpass | ⟨hpass, htype⟩ | ⟨hpass, htype⟩ := chunk_cases m p e
    · rw [validate_of_not_passes fuel hp hpass, List.mem_singleton] at h
      exact h ▸ ⟨rfl, e, .here hp⟩
    · rw [validate_of_chunk fuel hp hpass htype] at h
      obtain rfl | h := List.mem_cons.mp h
      · exact ⟨rfl, e, .here hp⟩
      · obtain ⟨hlen, f, hf⟩ := ih h
        exact ⟨hlen, f, .chunk hp hpass htype hf⟩
    · rw [validate_of_xml fuel hp hpass htype] at h
      obtain rfl | h := List.mem_cons.mp h
      · exact ⟨rfl, e, .here hp⟩
      · obtain h | ⟨⟨⟩, hin, h⟩ := Outcome.mem_bind h
        · obtain ⟨hlen, f, hf⟩ := ih h
          exact ⟨hlen, f, .inside hp hpass htype hf⟩
        · obtain ⟨hlen, f, hf⟩ := ih h
          exact ⟨hlen, f, .xml hp hpass htype (validates_of_validate hin) hf⟩

/-- Every chunk that `validate` comes to is examined, with enough fuel. -/
theorem Visits.mem (h : Visits m p e q f) :
    ∃ n, ∀ fuel, n ≤ fuel → (q, sizeofChunkHeader) ∈ (validate m (fuel + 1) p e).1 := by
  induction h with
  | @here p e hp =>
    refine ⟨0, fun fuel _ => ?_⟩
    obtain hpass | ⟨hpass, htype⟩ | ⟨hpass, htype⟩ := chunk_cases m p e
    · rw [validate_of_not_passes fuel hp hpass]
      exact .head _
    · rw [validate_of_chunk fuel hp hpass htype]
      exact .head _
    · rw [validate_of_xml fuel hp hpass htype]
      exact .head _
  | chunk hp hpass htype _ ih =>
    obtain ⟨n, hn⟩ := ih
    refine ⟨n + 1, fun fuel hfuel => ?_⟩
    obtain ⟨fuel, rfl⟩ : ∃ k, fuel = k + 1 := ⟨fuel - 1, by omega⟩
    rw [validate_of_chunk _ hp hpass htype]
    exact .tail _ (hn fuel (by omega))
  | inside hp hpass htype _ ih =>
    obtain ⟨n, hn⟩ := ih
    refine ⟨n + 1, fun fuel hfuel => ?_⟩
    obtain ⟨fuel, rfl⟩ : ∃ k, fuel = k + 1 := ⟨fuel - 1, by omega⟩
    rw [validate_of_xml _ hp hpass htype]
    exact .tail _ (Outcome.mem_bind_left (hn fuel (by omega)))
  | xml hp hpass htype hin _ ih =>
    obtain ⟨n, hn⟩ := ih
    obtain ⟨n', hn'⟩ := hin.ends
    refine ⟨max n n' + 1, fun fuel hfuel => ?_⟩
    obtain ⟨fuel, rfl⟩ : ∃ k, fuel = k + 1 := ⟨fuel - 1, by omega⟩
    rw [validate_of_xml _ hp hpass htype, Outcome.bind_of_ok (hn' (fuel + 1) (by omega))]
    exact .tail _ (List.mem_append_right _ (hn fuel (by omega)))

end Validate

section File

variable {m : Mem} {size fuel : Nat} {file : AxmlFile}

/-- What the constructor has checked of a file that it accepts. -/
theorem validates_of_axmlFile (h : (axmlFile m size fuel).2 = some (.ok file)) :
    Validates m 0 size ∧ (chunkHeader m 0).type = ChunkHeader.typeXml ∧
      file.rangeBegin = (chunkHeader m 0).headerSize ∧ file.rangeEnd = (chunkHeader m 0).size := by
  obtain ⟨⟨⟩, hval, h⟩ := Outcome.bind_ok h
  simp only [Outcome.examine_snd] at h
  split at h
  · cases h
  · rename_i htype
    obtain ⟨pool, -, h⟩ := Outcome.bind_ok h
    cases h
    exact ⟨validates_of_validate hval, not_not.mp htype, rfl, rfl⟩

/-- The inside of the document, in a buffer that is not empty. -/
theorem Validates.document (h : Validates m 0 size) (hsize : size ≠ 0)
    (htype : (chunkHeader m 0).type = ChunkHeader.typeXml) :
    Validates m (chunkHeader m 0).headerSize (chunkHeader m 0).size := by
  cases h with
  | done => exact absurd rfl hsize
  | chunk _ _ hne => exact absurd htype hne
  | xml _ _ _ hin => simpa only [Nat.zero_add] using hin

end File

/-! ## The buffer decides -/

/-- The memory with the buffer and zeros behind it. -/
def memOf (bytes : List UInt8) : Mem := fun i => bytes.getD i 0

/-- The memory holds the buffer; what is behind it is arbitrary. -/
def Holds (bytes : List UInt8) (m : Mem) : Prop := ∀ i < bytes.length, m i = memOf bytes i

theorem holds_memOf (bytes : List UInt8) : Holds bytes (memOf bytes) := fun _ _ => rfl

section Buffer

variable {bytes : List UInt8} {m m' : Mem} {p e q f : Nat}

theorem chunkHeader_congr (hm : Holds bytes m) (hm' : Holds bytes m')
    (hp : p + sizeofChunkHeader ≤ bytes.length) : chunkHeader m p = chunkHeader m' p := by
  have heq (i : Nat) (hi : i < 8) : m (p + i) = m' (p + i) := by
    have hlt : p + i < bytes.length := by unfold sizeofChunkHeader at hp; omega
    rw [hm _ hlt, hm' _ hlt]
  have h0 := heq 0 (by omega)
  simp only [Nat.add_zero] at h0
  simp only [chunkHeader, read16, read32, Nat.add_assoc, Nat.reduceAdd, h0, heq 1, heq 2, heq 3, heq 4,
    heq 5, heq 6, heq 7, Nat.reduceLT]

/-- The header of a chunk that passes is in the buffer. -/
theorem Passes.header_le (h : Passes m p e) : p + sizeofChunkHeader ≤ e := by
  unfold Passes at h
  omega

theorem Passes.congr (hm : Holds bytes m) (hm' : Holds bytes m') (he : e ≤ bytes.length)
    (h : Passes m p e) : chunkHeader m p = chunkHeader m' p ∧ Passes m' p e := by
  have heq := chunkHeader_congr hm hm' (Nat.le_trans h.header_le he)
  refine ⟨heq, ?_⟩
  unfold Passes at h ⊢
  rwa [← heq]

theorem Validates.congr (hm : Holds bytes m) (hm' : Holds bytes m') (he : e ≤ bytes.length)
    (h : Validates m p e) : Validates m' p e := by
  induction h with
  | done e => exact .done e
  | chunk hp hpass htype _ ih =>
    obtain ⟨heq, hpass'⟩ := hpass.congr hm hm' he
    rw [heq] at htype ih
    exact .chunk hp hpass' htype (ih he)
  | xml hp hpass htype _ _ ihin ih =>
    obtain ⟨heq, hpass'⟩ := hpass.congr hm hm' he
    rw [heq] at htype ih ihin
    exact .xml hp hpass' htype (ihin (Nat.le_trans hpass'.2.2 he)) (ih he)

/-- What `validate` comes to, with what the checks make of it, depends on the buffer only. -/
theorem Visits.congr (hm : Holds bytes m) (hm' : Holds bytes m') (he : e ≤ bytes.length)
    (h : Visits m p e q f) : Visits m' p e q f ∧ f ≤ bytes.length := by
  induction h with
  | here hp => exact ⟨.here hp, he⟩
  | chunk hp hpass htype _ ih =>
    obtain ⟨heq, hpass'⟩ := hpass.congr hm hm' he
    rw [heq] at htype ih
    exact ⟨.chunk hp hpass' htype (ih he).1, (ih he).2⟩
  | inside hp hpass htype _ ih =>
    obtain ⟨heq, hpass'⟩ := hpass.congr hm hm' he
    rw [heq] at htype ih
    have hin := ih (Nat.le_trans hpass'.2.2 he)
    exact ⟨.inside hp hpass' htype hin.1, hin.2⟩
  | xml hp hpass htype hin _ ih =>
    have hin' := hin.congr hm hm' (Nat.le_trans hpass.2.2 he)
    obtain ⟨heq, hpass'⟩ := hpass.congr hm hm' he
    rw [heq] at htype ih hin'
    exact ⟨.xml hp hpass' htype hin' (ih he).1, (ih he).2⟩

/-- Where a chunk does not pass, it passes in no memory with the buffer. -/
theorem validate_congr (hm : Holds bytes m) (hm' : Holds bytes m') (he : e ≤ bytes.length)
    (fuel : Nat) : validate m fuel p e = validate m' fuel p e := by
  induction fuel generalizing p e with
  | zero => rfl
  | succ fuel ih =>
    by_cases hp : p = e
    · rw [hp, validate_of_eq, validate_of_eq]
    obtain hpass | ⟨hpass, htype⟩ | ⟨hpass, htype⟩ := chunk_cases m p e
    · have hpass' : ¬Passes m' p e := fun h => hpass (h.congr hm' hm he).2
      rw [validate_of_not_passes fuel hp hpass, validate_of_not_passes fuel hp hpass']
    · obtain ⟨heq, hpass'⟩ := hpass.congr hm hm' he
      rw [validate_of_chunk fuel hp hpass htype, heq, ih he,
        validate_of_chunk fuel hp hpass' (heq ▸ htype)]
    · obtain ⟨heq, hpass'⟩ := hpass.congr hm hm' he
      rw [validate_of_xml fuel hp hpass htype, heq, ih he, ih (Nat.le_trans hpass'.2.2 he),
        validate_of_xml fuel hp hpass' (heq ▸ htype)]

end Buffer
end McpeLauncher.Axml
