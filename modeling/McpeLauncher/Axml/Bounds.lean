import Mathlib.Data.Nat.Basic
import McpeLauncher.Axml.Chunks

/-!
# What the parser reads

A header is read before it is checked, so that the bytes behind a chunk may be too few for one; and
the subtraction of `checkNode` wraps when a chunk is smaller than its header.
-/

namespace McpeLauncher.Axml
open Codec AxmlParser

/-- The parser is in the state `s'` after some calls of `next` that returned `true`. -/
inductive Reached (m : Mem) (rangeEnd : Nat) : AxmlParser → AxmlParser → Prop
  | one {s s' : AxmlParser} (fuel : Nat) (h : next m rangeEnd fuel s = some (.ok (true, s'))) :
      Reached m rangeEnd s s'
  | more {s s₁ s' : AxmlParser} (fuel : Nat) (h : next m rangeEnd fuel s = some (.ok (true, s₁)))
      (hrest : Reached m rangeEnd s₁ s') : Reached m rangeEnd s s'

/-- Whatever is behind the buffer, the headers that the constructor examines are inside, and so are
the nodes that the accessors read if it accepts the file. -/
def InBuffer (bytes : List UInt8) : Prop :=
  ∀ m, Holds bytes m →
    (∀ fuel, ∀ r ∈ (axmlFile m bytes.length fuel).1, r.1 + r.2 ≤ bytes.length) ∧
    ∀ fuel file, (axmlFile m bytes.length fuel).2 = some (.ok file) →
      ∀ s, Reached m file.rangeEnd (ofFile file) s →
        ∀ ev ∈ s.evType, getNode m s + ev.nodeSize ≤ bytes.length

/-- There are at least eight bytes of the buffer, or none of its range, behind the chunk at `p`; and
behind its header if it is an XML chunk. -/
def RoomBehind (m : Mem) (len p e : Nat) : Prop :=
  Passes m p e →
    ((chunkHeader m p).type = ChunkHeader.typeXml →
      (chunkHeader m p).headerSize ≠ (chunkHeader m p).size →
        p + (chunkHeader m p).headerSize + sizeofChunkHeader ≤ len) ∧
    (((chunkHeader m p).type = ChunkHeader.typeXml →
        Validates m (p + (chunkHeader m p).headerSize) (p + (chunkHeader m p).size)) →
      p + (chunkHeader m p).size ≠ e → p + (chunkHeader m p).size + sizeofChunkHeader ≤ len)

/-- `Walk m e p q`: on the way from the chunk at `p` to the one at `q`, by the sizes, `next` throws
no exception. -/
inductive Walk (m : Mem) (e : Nat) : Nat → Nat → Prop
  | here {p : Nat} (hp : p ≠ e) : Walk m e p p
  | step {p q : Nat} (hp : p ≠ e) (hok : ∀ x, event m p ≠ some (.error x))
      (hrest : Walk m e (p + (chunkHeader m p).size) q) : Walk m e p q

/-- The nodes of eight bytes. -/
def IsSmallNode (header : ChunkHeader) : Prop :=
  header.type = ChunkHeader.typeXmlStartNamespace ∨ header.type = ChunkHeader.typeXmlEndNamespace ∨
    header.type = ChunkHeader.typeXmlEndElement

/-- A node of the document that `next` comes to and that is smaller than its header still has its
eight bytes in the buffer. -/
def SmallNodesInBuffer (m : Mem) (len : Nat) : Prop :=
  ∀ q, Walk m (chunkHeader m 0).size (chunkHeader m 0).headerSize q → IsSmallNode (chunkHeader m q) →
    sizeofXMLNodeChunkHeader ≤ (chunkHeader m q).headerSize →
    (chunkHeader m q).size < (chunkHeader m q).headerSize →
    q + (chunkHeader m q).headerSize + sizeofNamespaceChunkData ≤ len

/-! ## Headers -/

section Headers

variable {m : Mem} {p e len : Nat}

theorem AllVisited.roomBehind
    (h : AllVisited m p e fun q _ => q + sizeofChunkHeader ≤ len) :
    AllVisited m p e fun q f => RoomBehind m len q f := by
  intro q f hv hpass
  constructor
  · intro htype hne
    exact h _ _ (hv.trans (.inside hv.ne hpass htype (.here (by omega))))
  · intro hin hne
    by_cases htype : (chunkHeader m q).type = ChunkHeader.typeXml
    · exact h _ _ (hv.trans (.xml hv.ne hpass htype (hin htype) (.here hne)))
    · exact h _ _ (hv.trans (.chunk hv.ne hpass htype (.here hne)))

/-- The headers are inside, by induction on how `validate` comes to them. -/
theorem AllVisited.header_le (h : AllVisited m p e fun q f => RoomBehind m len q f)
    (hp : p ≠ e → p + sizeofChunkHeader ≤ len) :
    AllVisited m p e fun q _ => q + sizeofChunkHeader ≤ len := by
  intro q f hv
  induction hv with
  | here hne => exact hp hne
  | chunk hne hpass htype hrest ih =>
    apply ih (h.chunk hne hpass htype)
    exact (h _ _ (.here hne) hpass).2 fun hxml => absurd hxml htype
  | inside hne hpass htype hin ih =>
    apply ih (h.inside hne hpass htype)
    intro hne'
    exact (h _ _ (.here hne) hpass).1 htype (by omega)
  | xml hne hpass htype hin hrest ih =>
    apply ih (h.xml hne hpass htype hin)
    exact (h _ _ (.here hne) hpass).2 fun _ => hin

/-- The search for the string pool stays in a validated range. -/
theorem Validates.findStringPool_le (h : Validates m p e) (fuel : Nat) :
    ∀ r ∈ (findStringPool m fuel p e).1, r.1 + r.2 ≤ e := by
  revert fuel
  apply h.chunks (P := fun p => ∀ fuel, ∀ r ∈ (findStringPool m fuel p e).1, r.1 + r.2 ≤ e)
  · intro fuel r hr
    cases fuel with
    | zero => cases hr
    | succ fuel =>
      rw [findStringPool, if_pos rfl] at hr
      cases hr
  · intro p hp hpass ih fuel r hr
    cases fuel with
    | zero => cases hr
    | succ fuel =>
      simp only [findStringPool, if_neg hp] at hr
      obtain rfl | hr := List.mem_cons.mp hr
      · exact hpass.header_le
      split at hr
      · split at hr
        · cases hr
        · rename_i hheader
          obtain rfl | hr := List.mem_cons.mp hr
          · have hend := hpass.2.1
            simp only
            omega
          · cases hr
      · exact ih fuel r hr

end Headers

/-! ## Nodes -/

section Nodes

variable {m : Mem} {p q e len : Nat} {ev : EventType}

theorem read16_lt (m : Mem) (p : Nat) : read16 m p < 65536 := by
  have h := leNat_lt [m p, m (p + 1)]
  simp only [List.length_cons, List.length_nil, Nat.reduceAdd, Nat.reducePow] at h
  exact h

theorem read32_lt (m : Mem) (p : Nat) : read32 m p < 4294967296 := by
  have h := leNat_lt [m p, m (p + 1), m (p + 2), m (p + 3)]
  simp only [List.length_cons, List.length_nil, Nat.reduceAdd, Nat.reducePow] at h
  exact h

theorem headerSize_lt (m : Mem) (p : Nat) : (chunkHeader m p).headerSize < 65536 :=
  read16_lt m (p + 2)

theorem size_lt (m : Mem) (p : Nat) : (chunkHeader m p).size < 4294967296 :=
  read32_lt m (p + 4)

theorem checkNode_ok_iff {n : Nat} {header : ChunkHeader} :
    checkNode n header = .ok () ↔ sizeofXMLNodeChunkHeader ≤ header.headerSize ∧
      n ≤ (header.size + 2 ^ 32 - header.headerSize) % 2 ^ 32 := by
  unfold checkNode
  split
  · simp only [reduceCtorEq, false_iff]
    omega
  · split
    · simp only [reduceCtorEq, false_iff]
      omega
    · simp only [true_iff]
      omega

/-- Of a chunk that is not smaller than its header, the node is inside. -/
theorem checkNode_le {n : Nat} (h : checkNode n (chunkHeader m p) = .ok ())
    (hsize : (chunkHeader m p).headerSize ≤ (chunkHeader m p).size) :
    (chunkHeader m p).headerSize + n ≤ (chunkHeader m p).size := by
  have hn := (checkNode_ok_iff.mp h).2
  have hlt := size_lt m p
  omega

/-- The node check lets a chunk through that is smaller than its header. -/
theorem checkNode_of_wrap {n : Nat} (hn : n ≤ 20)
    (hheader : sizeofXMLNodeChunkHeader ≤ (chunkHeader m p).headerSize)
    (hsize : (chunkHeader m p).size < (chunkHeader m p).headerSize) :
    checkNode n (chunkHeader m p) = .ok () := by
  have hlt := headerSize_lt m p
  exact checkNode_ok_iff.mpr ⟨hheader, by omega⟩

theorem checkStartElement_ok (h : checkStartElement m p (chunkHeader m p) = .ok ()) :
    checkNode sizeofStartElementChunkData (chunkHeader m p) = .ok () ∧
      (chunkHeader m p).headerSize ≤ (chunkHeader m p).size := by
  unfold checkStartElement at h
  split at h
  · cases h
  · rename_i hnode
    simp only at h
    split at h
    · cases h
    · split at h
      · cases h
      · exact ⟨hnode, by omega⟩

theorem map_ok {α β : Type} {r : Except AxmlError α} {f : α → β} {b : β} (h : r.map f = .ok b) :
    ∃ a, r = .ok a ∧ f a = b := by
  cases r with
  | error => cases h
  | ok a => exact ⟨a, rfl, Except.ok.inj h⟩

/-- The events: a small node that passes the node check, or a start element, which is never smaller
than its header. -/
theorem event_cases (h : event m p = some (.ok ev)) :
    (ev.nodeSize = sizeofNamespaceChunkData ∧ IsSmallNode (chunkHeader m p) ∧
      checkNode sizeofNamespaceChunkData (chunkHeader m p) = .ok ()) ∨
    (ev.nodeSize = sizeofStartElementChunkData ∧
      checkNode sizeofStartElementChunkData (chunkHeader m p) = .ok () ∧
      (chunkHeader m p).headerSize ≤ (chunkHeader m p).size) := by
  simp only [event] at h
  split at h
  · rename_i htype
    obtain ⟨⟨⟩, hcheck, rfl⟩ := map_ok (Option.some.inj h)
    refine .inl ⟨?_, htype.imp_right .inl, hcheck⟩
    split <;> rfl
  split at h
  · obtain ⟨⟨⟩, hcheck, rfl⟩ := map_ok (Option.some.inj h)
    exact .inr ⟨rfl, checkStartElement_ok hcheck⟩
  split at h
  · rename_i htype
    obtain ⟨⟨⟩, hcheck, rfl⟩ := map_ok (Option.some.inj h)
    exact .inl ⟨rfl, .inr (.inr htype), hcheck⟩
  · cases h

/-- A small node that passes the node check is an event. -/
theorem event_of_small (htype : IsSmallNode (chunkHeader m p))
    (hcheck : checkNode sizeofNamespaceChunkData (chunkHeader m p) = .ok ()) :
    ∃ ev : EventType, event m p = some (.ok ev) ∧ ev.nodeSize = sizeofNamespaceChunkData := by
  simp only [event]
  split
  · rw [hcheck]
    refine ⟨_, rfl, ?_⟩
    split <;> rfl
  · rename_i hns
    have hend : (chunkHeader m p).type = ChunkHeader.typeXmlEndElement := by
      unfold IsSmallNode at htype
      tauto
    have hstart : ¬(chunkHeader m p).type = ChunkHeader.typeXmlStartElement := by
      rw [hend]
      decide
    rw [if_neg hstart, if_pos hend]
    exact ⟨.endElement, congrArg _ (congrArg (Except.map fun _ => EventType.endElement) hcheck), rfl⟩

/-- The node of an event is in the buffer unless it is a small one behind a header that is larger
than its chunk. -/
theorem event_node_le (h : event m q = some (.ok ev)) (hpass : Passes m q e) (he : e ≤ len)
    (hsmall : IsSmallNode (chunkHeader m q) →
      sizeofXMLNodeChunkHeader ≤ (chunkHeader m q).headerSize →
      (chunkHeader m q).size < (chunkHeader m q).headerSize →
      q + (chunkHeader m q).headerSize + sizeofNamespaceChunkData ≤ len) :
    q + (chunkHeader m q).headerSize + ev.nodeSize ≤ len := by
  have hend := hpass.2.2
  obtain ⟨hn, htype, hcheck⟩ | ⟨hn, hcheck, hle⟩ := event_cases h
  · rw [hn]
    rcases Nat.lt_or_ge (chunkHeader m q).size (chunkHeader m q).headerSize with hlt | hge
    · exact hsmall htype (checkNode_ok_iff.mp hcheck).1 hlt
    · have hle := checkNode_le hcheck hge
      omega
  · rw [hn]
    have hle := checkNode_le hcheck hle
    omega

end Nodes

section Walks

variable {m : Mem} {p q r e : Nat} {s s' : AxmlParser}

theorem Walk.ne (h : Walk m e p q) : q ≠ e := by
  induction h with
  | here hp => exact hp
  | step _ _ _ ih => exact ih

theorem Walk.trans (h : Walk m e p q) (hok : ∀ x, event m q ≠ some (.error x))
    (h' : Walk m e (q + (chunkHeader m q).size) r) : Walk m e p r := by
  induction h with
  | here hp => exact .step hp hok h'
  | step hp hok' _ ih => exact .step hp hok' (ih hok h')

theorem Validates.uncons (h : Validates m p e) (hp : p ≠ e) :
    Passes m p e ∧ Validates m (p + (chunkHeader m p).size) e := by
  cases h with
  | done => exact absurd rfl hp
  | chunk _ hpass _ hrest => exact ⟨hpass, hrest⟩
  | xml _ hpass _ _ hrest => exact ⟨hpass, hrest⟩

theorem Walk.passes (h : Walk m e p q) (hval : Validates m p e) : Passes m q e := by
  induction h with
  | here hp => exact (hval.uncons hp).1
  | step hp _ _ ih => exact ih (hval.uncons hp).2

/-- A call of `next` that returns `true` has walked to the chunk of the event. -/
theorem next_walk {fuel : Nat} (h : AxmlParser.next m e fuel s = some (.ok (true, s'))) :
    Walk m e (incrementIterator m e s).rangeIt s'.rangeIt ∧ s'.firstEl = false ∧
      ∃ ev, s'.evType = some ev ∧ event m s'.rangeIt = some (.ok ev) := by
  induction fuel generalizing s with
  | zero => cases h
  | succ fuel ih =>
    simp only [AxmlParser.next] at h
    split at h
    · cases h
    · rename_i hp
      cases hev : event m (incrementIterator m e s).rangeIt with
      | none =>
        rw [hev] at h
        obtain ⟨hwalk, hrest⟩ := ih h
        rw [incrementIterator_rangeIt (incrementIterator_firstEl m e s) hp] at hwalk
        exact ⟨.step hp (by simp [hev]) hwalk, hrest⟩
      | some x =>
        rw [hev] at h
        cases x with
        | error x => cases h
        | ok ev =>
          cases h
          exact ⟨.here hp, incrementIterator_firstEl m e s, ev, rfl, hev⟩

theorem Reached.walk (h : Reached m e s s') :
    Walk m e (incrementIterator m e s).rangeIt s'.rangeIt ∧
      ∃ ev, s'.evType = some ev ∧ event m s'.rangeIt = some (.ok ev) := by
  induction h with
  | one fuel h =>
    obtain ⟨hwalk, -, hev⟩ := next_walk h
    exact ⟨hwalk, hev⟩
  | more fuel h _ ih =>
    obtain ⟨hwalk, hfirst, ev, -, hev⟩ := next_walk h
    rw [incrementIterator_rangeIt hfirst hwalk.ne] at ih
    exact ⟨hwalk.trans (by simp [hev]) ih.1, ih.2⟩

/-- What is reached after a chunk without an event was skipped. -/
theorem Reached.skip (hp : (incrementIterator m e s).rangeIt ≠ e)
    (hev : event m (incrementIterator m e s).rangeIt = none)
    (h : Reached m e (incrementIterator m e s) s') : Reached m e s s' := by
  have hnext (fuel : Nat) :
      AxmlParser.next m e (fuel + 1) s = AxmlParser.next m e fuel (incrementIterator m e s) := by
    simp only [AxmlParser.next, if_neg hp, hev]
  cases h with
  | one fuel h => exact .one (fuel + 1) ((hnext fuel).trans h)
  | more fuel h hrest => exact .more (fuel + 1) ((hnext fuel).trans h) hrest

/-- Every event on a walk is reached. -/
theorem Walk.reached {ev : EventType} (h : Walk m e p q) (hev : event m q = some (.ok ev))
    (s : AxmlParser) (hs : (incrementIterator m e s).rangeIt = p) :
    ∃ s', Reached m e s s' ∧ s'.rangeIt = q ∧ s'.evType = some ev := by
  induction h generalizing s with
  | here hp =>
    subst hs
    have hnext : AxmlParser.next m e 1 s =
        some (.ok (true, { incrementIterator m e s with evType := some ev })) := by
      simp only [AxmlParser.next, if_neg hp, hev]
    exact ⟨_, .one 1 hnext, rfl, rfl⟩
  | step hp hok _ ih =>
    subst hs
    have hfirst := incrementIterator_firstEl m e s
    cases hp' : event m (incrementIterator m e s).rangeIt with
    | none =>
      obtain ⟨s', hr, hs'⟩ := ih hev _ (incrementIterator_rangeIt hfirst hp)
      exact ⟨s', hr.skip hp hp', hs'⟩
    | some x =>
      cases x with
      | error x => exact absurd hp' (hok x)
      | ok ev' =>
        have hnext : AxmlParser.next m e 1 s =
            some (.ok (true, { incrementIterator m e s with evType := some ev' })) := by
          simp only [AxmlParser.next, if_neg hp, hp']
        obtain ⟨s', hr, hs'⟩ := ih hev { incrementIterator m e s with evType := some ev' }
          (incrementIterator_rangeIt (s := { incrementIterator m e s with evType := some ev' })
            hfirst hp)
        exact ⟨s', .more 1 hnext hr, hs'⟩

end Walks

/-! ## The buffer decides -/

section Buffer

variable {bytes : List UInt8} {m m' : Mem} {p q e : Nat}

theorem read16_congr (hm : Holds bytes m) (hm' : Holds bytes m') (hp : p + 2 ≤ bytes.length) :
    read16 m p = read16 m' p := by
  simp only [read16, hm p (by omega), hm (p + 1) (by omega), hm' p (by omega),
    hm' (p + 1) (by omega)]

/-- A start element that is smaller than its header is never accepted. -/
theorem event_of_small_start (m : Mem)
    (htype : (chunkHeader m p).type = ChunkHeader.typeXmlStartElement)
    (hsize : (chunkHeader m p).size < (chunkHeader m p).headerSize) :
    ∃ x, event m p = some (.error x) := by
  have hns : ¬((chunkHeader m p).type = ChunkHeader.typeXmlStartNamespace ∨
      (chunkHeader m p).type = ChunkHeader.typeXmlEndNamespace) := by
    rw [htype]
    decide
  simp only [event, if_neg hns, if_pos htype]
  cases hcheck : checkStartElement m p (chunkHeader m p) with
  | error x => exact ⟨x, rfl⟩
  | ok u => exact absurd (checkStartElement_ok hcheck).2 (by omega)

theorem checkStartElement_congr (hm : Holds bytes m) (hm' : Holds bytes m') (he : e ≤ bytes.length)
    (hpass : Passes m p e) (hsize : (chunkHeader m p).headerSize ≤ (chunkHeader m p).size) :
    checkStartElement m p (chunkHeader m p) = checkStartElement m' p (chunkHeader m p) := by
  unfold checkStartElement
  split
  · rfl
  · rename_i hcheck
    have hnode := checkNode_le hcheck hsize
    have hend := hpass.2.2
    unfold sizeofStartElementChunkData at hnode
    simp only [read16_congr (p := p + (chunkHeader m p).headerSize + 8) hm hm' (by omega),
      read16_congr (p := p + (chunkHeader m p).headerSize + 10) hm hm' (by omega),
      read16_congr (p := p + (chunkHeader m p).headerSize + 12) hm hm' (by omega)]

/-- Whether `next` throws at a chunk that passes depends on the buffer only. -/
theorem event_error_congr (hm : Holds bytes m) (hm' : Holds bytes m') (he : e ≤ bytes.length)
    (hpass : Passes m p e) {x : AxmlError} (h : event m p = some (.error x)) :
    ∃ x, event m' p = some (.error x) := by
  have heq := (hpass.congr hm hm' he).1
  by_cases htype : (chunkHeader m p).type = ChunkHeader.typeXmlStartElement
  · rcases Nat.lt_or_ge (chunkHeader m p).size (chunkHeader m p).headerSize with hlt | hge
    · exact event_of_small_start m' (heq ▸ htype) (heq ▸ hlt)
    · refine ⟨x, ?_⟩
      rw [← h]
      simp only [event, ← heq, checkStartElement_congr hm hm' he hpass hge]
  · refine ⟨x, ?_⟩
    rw [← h]
    simp only [event, ← heq, if_neg htype]

theorem Walk.congr (hm : Holds bytes m) (hm' : Holds bytes m') (he : e ≤ bytes.length)
    (h : Walk m e p q) (hval : Validates m p e) : Walk m' e p q := by
  induction h with
  | here hp => exact .here hp
  | step hp hok _ ih =>
    obtain ⟨hpass, hrest⟩ := hval.uncons hp
    obtain ⟨heq, hpass'⟩ := hpass.congr hm hm' he
    refine .step hp ?_ (heq ▸ ih hrest)
    intro x hx
    obtain ⟨x', hx'⟩ := event_error_congr hm' hm he hpass' hx
    exact hok x' hx'

theorem Validates.findStringPool_congr (hm : Holds bytes m) (hm' : Holds bytes m')
    (he : e ≤ bytes.length) (h : Validates m p e) (fuel : Nat) :
    findStringPool m fuel p e = findStringPool m' fuel p e := by
  revert fuel
  apply h.chunks (P := fun p => ∀ fuel, findStringPool m fuel p e = findStringPool m' fuel p e)
  · intro fuel
    cases fuel with
    | zero => rfl
    | succ fuel => rw [findStringPool, findStringPool, if_pos rfl, if_pos rfl]
  · intro p hp hpass ih fuel
    cases fuel with
    | zero => rfl
    | succ fuel =>
      have heq := (hpass.congr hm hm' he).1
      simp only [findStringPool, ← heq, ih fuel]

/-- The constructor accepts the same files, whatever is behind a buffer with at least a header. -/
theorem axmlFile_congr (hm : Holds bytes m) (hm' : Holds bytes m')
    (hlen : sizeofChunkHeader ≤ bytes.length) {fuel : Nat} {file : AxmlFile}
    (h : (axmlFile m bytes.length fuel).2 = some (.ok file)) :
    (axmlFile m' bytes.length fuel).2 = some (.ok file) := by
  have heq : chunkHeader m 0 = chunkHeader m' 0 := chunkHeader_congr hm hm' (by omega)
  obtain ⟨hval, htype, -, -⟩ := validates_of_axmlFile h
  have hne : bytes.length ≠ 0 := by unfold sizeofChunkHeader at hlen; omega
  have hdoc := hval.document hne htype
  have hend : (chunkHeader m 0).size ≤ bytes.length := by
    simpa using (hval.uncons (Ne.symm hne)).1.2.2
  rw [← h, axmlFile, axmlFile, validate_congr hm hm' (Nat.le_refl _), ← heq]
  simp only [hdoc.findStringPool_congr hm hm' hend]

/-- The document of an accepted file. -/
theorem document_of_axmlFile (hlen : bytes.length ≠ 0) {fuel : Nat} {file : AxmlFile}
    (h : (axmlFile m bytes.length fuel).2 = some (.ok file)) :
    Validates m (chunkHeader m 0).headerSize (chunkHeader m 0).size ∧
      (chunkHeader m 0).size ≤ bytes.length := by
  obtain ⟨hval, htype, -, -⟩ := validates_of_axmlFile h
  refine ⟨hval.document hlen htype, ?_⟩
  simpa using (hval.uncons (Ne.symm hlen)).1.2.2

/-- What the constructor examines, when the headers that `validate` comes to are in the buffer. -/
theorem axmlFile_examines (hlen : sizeofChunkHeader ≤ bytes.length)
    (h : AllVisited m 0 bytes.length fun q _ => q + sizeofChunkHeader ≤ bytes.length) (fuel : Nat) :
    ∀ r ∈ (axmlFile m bytes.length fuel).1, r.1 + r.2 ≤ bytes.length := by
  intro r hr
  have hne : bytes.length ≠ 0 := by unfold sizeofChunkHeader at hlen; omega
  obtain hr | ⟨⟨⟩, hval, hr⟩ := Outcome.mem_bind hr
  · obtain ⟨hr2, f, hv⟩ := visits_of_mem hr
    rw [hr2]
    exact h r.1 f hv
  obtain rfl | hr := List.mem_cons.mp hr
  · simpa using hlen
  have hval := validates_of_validate hval
  simp only at hr
  split at hr
  · cases hr
  · rename_i htype
    have hdoc := hval.document hne (not_not.mp htype)
    have hend := (hval.uncons (Ne.symm hne)).1.2.2
    obtain hr | ⟨pool, -, hr⟩ := Outcome.mem_bind hr
    · have hle := hdoc.findStringPool_le fuel r hr
      omega
    · cases hr

/-- A parser that stays in the buffer: the constructor reads the first header of an empty buffer,
too. -/
theorem InBuffer.header_le (h : InBuffer bytes) :
    sizeofChunkHeader ≤ bytes.length ∧
      AllVisited (memOf bytes) 0 bytes.length fun q _ => q + sizeofChunkHeader ≤ bytes.length := by
  have hexamined := (h _ (holds_memOf bytes)).1
  have hvisited : AllVisited (memOf bytes) 0 bytes.length fun q _ =>
      q + sizeofChunkHeader ≤ bytes.length := by
    intro q f hv
    obtain ⟨n, hn⟩ := hv.mem
    exact hexamined (n + 1) _ (Outcome.mem_bind_left (hn n (Nat.le_refl n)))
  refine ⟨?_, hvisited⟩
  by_cases hne : 0 = bytes.length
  · refine hexamined 1 (0, sizeofChunkHeader) ?_ |> le_trans (by simp)
    rw [axmlFile, ← hne, validate_of_eq, Outcome.bind_of_ok rfl]
    exact .head _
  · simpa using hvisited 0 bytes.length (.here hne)

theorem InBuffer.smallNodes (h : InBuffer bytes) {fuel : Nat} {file : AxmlFile}
    (hfile : (axmlFile (memOf bytes) bytes.length fuel).2 = some (.ok file)) :
    SmallNodesInBuffer (memOf bytes) bytes.length := by
  intro q hwalk htype hheader hsize
  obtain ⟨-, -, hbegin, hend⟩ := validates_of_axmlFile hfile
  obtain ⟨ev, hev, hn⟩ := event_of_small htype (checkNode_of_wrap (by decide) hheader hsize)
  rw [← hend] at hwalk
  obtain ⟨s, hreached, rfl, hs⟩ := hwalk.reached hev (ofFile file) hbegin
  have hnode := (h _ (holds_memOf bytes)).2 fuel file hfile s hreached ev hs
  rwa [getNode, hn] at hnode

/-- The nodes that the accessors read end in the buffer, whatever is behind it, if the small ones
do. -/
theorem SmallNodesInBuffer.node_le (hsmall : SmallNodesInBuffer (memOf bytes) bytes.length)
    (hm : Holds bytes m) (hlen : sizeofChunkHeader ≤ bytes.length) {fuel : Nat} {file : AxmlFile}
    (hfile : (axmlFile m bytes.length fuel).2 = some (.ok file)) {s : AxmlParser}
    (hreached : Reached m file.rangeEnd (ofFile file) s) {ev : EventType}
    (hs : s.evType = some ev) :
    getNode m s + ev.nodeSize ≤ bytes.length := by
  have hmem := holds_memOf bytes
  have hne : bytes.length ≠ 0 := by unfold sizeofChunkHeader at hlen; omega
  have heq : chunkHeader m 0 = chunkHeader (memOf bytes) 0 := chunkHeader_congr hm hmem (by omega)
  obtain ⟨hdoc, hend⟩ := document_of_axmlFile hne hfile
  obtain ⟨-, -, hbegin, hrange⟩ := validates_of_axmlFile hfile
  rw [hrange] at hreached
  obtain ⟨hwalk, ev', hs', hev⟩ := hreached.walk
  have hstart : (incrementIterator m (chunkHeader m 0).size (ofFile file)).rangeIt =
      (chunkHeader m 0).headerSize := hbegin
  rw [hstart] at hwalk
  obtain rfl : ev = ev' := by
    rw [hs'] at hs
    exact (Option.some.inj hs).symm
  have hpass := hwalk.passes hdoc
  have hhead := (hpass.congr hm hmem hend).1
  apply event_node_le hev hpass hend
  rw [hhead]
  apply hsmall
  rw [← heq]
  exact hwalk.congr hm hmem hend hdoc

end Buffer

/-- **Exactly when the parser stays in the buffer**: the buffer holds a header, behind every chunk
that `validate` comes to is room for the next header, and in an accepted file the nodes that are
smaller than their headers still end in the buffer. -/
theorem inBuffer_iff (bytes : List UInt8) :
    InBuffer bytes ↔
      sizeofChunkHeader ≤ bytes.length ∧
      (AllVisited (memOf bytes) 0 bytes.length fun p e => RoomBehind (memOf bytes) bytes.length p e) ∧
      ((∃ fuel file, (axmlFile (memOf bytes) bytes.length fuel).2 = some (.ok file)) →
        SmallNodesInBuffer (memOf bytes) bytes.length) := by
  constructor
  · intro h
    obtain ⟨hlen, hvisited⟩ := h.header_le
    exact ⟨hlen, hvisited.roomBehind, fun ⟨fuel, file, hfile⟩ => h.smallNodes hfile⟩
  · rintro ⟨hlen, hroom, hsmall⟩ m hm
    have hvisited := hroom.header_le fun _ => by simpa using hlen
    constructor
    · apply axmlFile_examines hlen
      intro q f hv
      exact hvisited q f (hv.congr hm (holds_memOf bytes) (Nat.le_refl _)).1
    · intro fuel file hfile s hreached ev hs
      have haccepted := axmlFile_congr hm (holds_memOf bytes) hlen hfile
      exact (hsmall ⟨fuel, file, haccepted⟩).node_le hm hlen hfile hreached hs

/-- A document whose only node is smaller than its header. -/
def smallNode : List UInt8 :=
  [3, 0, 8, 0, 24, 0, 0, 0, 0, 1, 16, 0, 8, 0, 0, 0, 0, 0, 8, 0, 8, 0, 0, 0]

/-- A chunk with three bytes behind it. -/
def shortTail : List UInt8 := [0, 0, 8, 0, 8, 0, 0, 0, 0, 0, 0]

/-- The constructor examines a header of which three bytes are in the buffer, and `next` returns
`true` at a node that begins at the end of the buffer. -/
theorem not_inBuffer_shortTail_smallNode :
    ((8, 8) ∈ (axmlFile (memOf shortTail) shortTail.length 3).1 ∧ shortTail.length < 8 + 8) ∧
    (axmlFile (memOf smallNode) smallNode.length 5).2 = some (.ok ⟨8, 24, none⟩) ∧
    next (memOf smallNode) 24 1 (ofFile ⟨8, 24, none⟩) =
      some (.ok (true, ⟨8, false, some .startNamespace⟩)) ∧
    getNode (memOf smallNode) ⟨8, false, some .startNamespace⟩ = smallNode.length ∧
    ¬InBuffer shortTail ∧ ¬InBuffer smallNode := by
  have hshort : (8, 8) ∈ (axmlFile (memOf shortTail) shortTail.length 3).1 := by decide +kernel
  have hfile : (axmlFile (memOf smallNode) smallNode.length 5).2 = some (.ok ⟨8, 24, none⟩) := by
    decide +kernel
  have hnext : next (memOf smallNode) 24 1 (ofFile ⟨8, 24, none⟩) =
      some (.ok (true, ⟨8, false, some .startNamespace⟩)) := by decide +kernel
  refine ⟨⟨hshort, by decide⟩, hfile, hnext, by decide +kernel, ?_, ?_⟩
  · intro h
    exact absurd ((h _ (holds_memOf _)).1 3 _ hshort) (by decide)
  · intro h
    have hnode := (h _ (holds_memOf _)).2 5 _ hfile _ (.one 1 hnext) _ rfl
    exact absurd hnode (by decide +kernel)

end McpeLauncher.Axml
