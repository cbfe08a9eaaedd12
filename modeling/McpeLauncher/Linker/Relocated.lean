import McpeLauncher.Lib.Assignments
import McpeLauncher.Linker.RelocateModes

/-!
# Relocated libraries

What is in memory after the tables of a library: each relocation puts the address of its symbol at
its place, and nothing else changes. It succeeds if all symbols are found that must be there.
-/

namespace McpeLauncher.Linker
open Elf PackedRelocs Assignments

variable {c : ElfClass}

/-- The kinds that shared libraries have, without those for variables of threads and for halves of
words. -/
def RelocType.isUsual : RelocType → Bool
  | jumpSlot | absolute | globDat | relative | irelative => true
  | _ => false

namespace Relocator

variable (r : Relocator c)

/-- The address of the symbol of a relocation: `0` without a symbol, or for one that need not be
there. -/
def resolve (reloc : Rel c) : Option (Addr c) :=
  if relSym reloc = 0 then some 0
  else do
    let name ← r.symName reloc
    let vi ← r.lookupVersionInfo (relSym reloc)
    let found ← soinfoDoLookup name vi r.lookupList
    match definition found with
    | some (lib, sym) => some (r.resolveSymbolAddress lib sym)
    | none => if r.mustBeThere (relSym reloc) then none else some 0

/-- The addend, where the word `old` is at the place. -/
def addend (reloc : Rel c) (old : Addr c) : Addr c := if c = .ELF64 then reloc.addend else old

/-- The word that replaces `old`. A linked library keeps the words without a symbol. -/
def newWord (reloc : Rel c) (symAddr old : Addr c) : Addr c :=
  if r.isLinked && symAddr = 0 then old
  else
    match r.type reloc with
    | .absolute => symAddr + addend reloc old
    | .relative => r.si.loadBias + addend reloc old
    | .irelative =>
      if r.isLinker then old else r.callIfuncResolver (r.si.loadBias + addend reloc old)
    | _ => symAddr + addendNorel reloc

/-- What a relocation does. -/
def assignment (reloc : Rel c) (symAddr : Addr c) : Assignment (Addr c) (Addr c) :=
  (r.target reloc, r.newWord reloc symAddr)

/-- The relocation is of a usual kind, to an aligned word. -/
structure Usual (reloc : Rel c) : Prop where
  isUsual : (r.type reloc).isUsual = true
  aligned : (r.target reloc).toNat % c.word = 0
  symName : (r.symName reloc).isSome = true

variable {r} {s s' : RelocState c} {reloc : Rel c} {name : Name} {mode : RelocMode}

/-! ## One relocation -/

/-- Whether the last search is used or not, a symbol is found as `resolve` says. -/
theorem Coherent.lookupSymbol (hs : r.Coherent s) (hname : r.symName reloc = some name)
    (hsym : relSym reloc ≠ 0) :
    (r.resolve reloc = none ∧
      ∀ found s', r.lookupSymbol (relSym reloc) name s ≠ some (some found, s')) ∨
    ∃ found s', r.lookupSymbol (relSym reloc) name s = some (some found, s') ∧ r.Coherent s' ∧
      s'.words = s.words ∧ r.resolve reloc = some (match found with
        | some (lib, sym) => r.resolveSymbolAddress lib sym
        | none => 0) := by
  have htext := hname
  rw [symName, if_neg hsym] at htext
  have hfind := hs.findSymbol_eq hsym htext
  rw [resolve, if_neg hsym, hname, Relocator.lookupSymbol]
  cases hvi : r.lookupVersionInfo (relSym reloc) with
  | none =>
    rw [hfind, searchSymbol, hvi]
    refine .inl ⟨rfl, fun _ _ h => ?_⟩
    cases h
  | some vi =>
    cases hfound : soinfoDoLookup name vi r.lookupList with
    | none =>
      rw [hfind, searchSymbol, hvi]
      refine .inl ⟨?_, fun _ _ h => ?_⟩
      · simp [hfound]
      · simp [hfound] at h
    | some found =>
      have hstate : r.findSymbol (relSym reloc) name s =
          some (some (s.remember (relSym reloc) found)) := by
        rw [hfind, searchSymbol, hvi]
        dsimp only
        rw [hfound, Option.map_some]
      have hcoherent := (hs.findSymbol htext hstate).1
      rw [hstate, Option.map_some]
      dsimp only
      simp only [Option.bind_eq_bind, Option.bind_some, hfound]
      have hcache : (s.remember (relSym reloc) found).cache = definition found := rfl
      rw [hcache]
      cases hdefinition : definition found with
      | none =>
        cases hmust : r.mustBeThere (relSym reloc) with
        | true =>
          refine .inl ⟨rfl, fun _ _ h => ?_⟩
          cases h
        | false => exact .inr ⟨_, _, rfl, hcoherent, rfl, rfl⟩
      | some d => exact .inr ⟨_, _, rfl, hcoherent, rfl, rfl⟩

theorem isUsual_cases {t : RelocType} (h : t.isUsual = true) :
    t.isTls = false ∧ t ≠ .none ∧ t ≠ .pc32 := by
  revert h
  cases t <;> decide

/-- Both kinds of versions have the same address. -/
theorem Usual.symAddress_eq (hu : r.Usual reloc) (isGeneral : Bool) :
    r.symAddress isGeneral reloc name s = r.plainAddress false reloc name s := by
  obtain ⟨htls, -, hpc32⟩ := isUsual_cases hu.isUsual
  simp [symAddress, htls, plainAddress, hpc32]

/-- The address of the symbol. -/
theorem Coherent.plainAddress (hs : r.Coherent s) (hname : r.symName reloc = some name) :
    (r.resolve reloc = none ∧ ∀ a s', r.plainAddress false reloc name s ≠ some (some a, s')) ∨
    ∃ a s', r.plainAddress false reloc name s = some (some a, s') ∧ r.Coherent s' ∧
      s'.words = s.words ∧ r.resolve reloc = some a := by
  rw [Relocator.plainAddress]
  split
  · next hsym => exact .inr ⟨0, s, rfl, hs, rfl, if_pos hsym⟩
  · next hsym =>
    rcases hs.lookupSymbol hname hsym with
      ⟨hresolve, hnone⟩ | ⟨found, s', hfound, hs', hwords, hresolve⟩
    · refine .inl ⟨hresolve, fun a s' h => ?_⟩
      obtain ⟨⟨found, s''⟩, hfound, h⟩ := Option.map_eq_some_iff.mp h
      cases found with
      | none => cases h
      | some found => exact hnone found s'' hfound
    · rw [hfound, Option.map_some]
      rcases found with _ | ⟨lib, sym⟩ <;> exact .inr ⟨_, s', rfl, hs', hwords, hresolve⟩

/-- The store of an aligned word. -/
theorem stored_store {a v : Addr c} (ha : a.toNat % c.word = 0) :
    stored s (s.words.store a v) = some (true, { s with words := Function.update s.words a v }) := by
  rw [Words.store, if_pos ha]
  rfl

theorem Usual.addendRel (hu : r.Usual reloc) (m : Words c) :
    r.addendRel reloc m = some (addend reloc (m (r.target reloc))) := by
  rw [Relocator.addendRel, addend]
  split
  · rfl
  · exact if_pos hu.aligned

/-- A usual relocation is an assignment. -/
theorem Usual.applyRelocation (hu : r.Usual reloc) (hs : r.Coherent s) (a : Addr c) :
    ∃ s', r.applyRelocation .general (r.processOther reloc) reloc (some a, s) = some (true, s') ∧
      r.Coherent s' ∧ s'.words = assign s.words (r.assignment reloc a) := by
  have hassign (v : Addr c) (hv : v = r.newWord reloc a (s.words (r.target reloc))) :
      ∃ s', stored s (s.words.store (r.target reloc) v) = some (true, s') ∧ r.Coherent s' ∧
        s'.words = assign s.words (r.assignment reloc a) := by
    rw [stored_store hu.aligned, hv]
    exact ⟨_, rfl, hs.words _, rfl⟩
  have hkept (h : r.newWord reloc a (s.words (r.target reloc)) = s.words (r.target reloc)) :
      s.words = assign s.words (r.assignment reloc a) := by
    dsimp only [assign, assignment]
    rw [h, Function.update_eq_self]
  rw [Relocator.applyRelocation]
  split
  · next hskip => exact ⟨s, rfl, hs, hkept (if_pos hskip)⟩
  · next hskip =>
    cases htype : r.type reloc with
    | jumpSlot | globDat =>
      simp only [RelocMode.handles, if_true, result, htype, Option.bind_some]
      refine hassign _ ?_
      rw [newWord, if_neg hskip, htype]
    | absolute | relative =>
      simp only [RelocMode.handles, if_true, result, htype, hu.addendRel, Option.map_some,
        Option.bind_some]
      refine hassign _ ?_
      rw [newWord, if_neg hskip, htype]
    | irelative =>
      simp only [RelocMode.handles, Bool.false_eq_true, if_false, processOther, htype]
      split
      · next hlinker =>
        refine ⟨s, rfl, hs, hkept ?_⟩
        rw [newWord, if_neg hskip, htype]
        exact if_pos hlinker
      · next hlinker =>
        rw [hu.addendRel, Option.bind_eq_bind, Option.bind_some]
        refine hassign _ ?_
        rw [newWord, if_neg hskip, htype]
        exact (if_neg hlinker).symm
    | _ =>
      have husual := hu.isUsual
      rw [htype] at husual
      cases husual

/-- What is run fails, unless `ok`, and makes assignments. -/
def Runs (r : Relocator c) (ok : Prop) (xs : List (Assignment (Addr c) (Addr c))) (s : RelocState c)
    (x : Option (Bool × RelocState c)) : Prop :=
  (¬ok ∧ ∀ s', x ≠ some (true, s')) ∨
  ok ∧ ∃ s', x = some (true, s') ∧ r.Coherent s' ∧ s'.words = assignAll xs s.words

/-- The assignment of a relocation whose symbol is found. -/
def found (r : Relocator c) (reloc : Rel c) : Assignment (Addr c) (Addr c) :=
  r.assignment reloc ((r.resolve reloc).getD 0)

theorem processRelocationGeneral_usual (hs : r.Coherent s) (hu : r.Usual reloc) :
    r.Runs ((r.resolve reloc).isSome = true) [r.found reloc] s
      (r.processRelocationGeneral reloc s) := by
  obtain ⟨name, hname⟩ := Option.isSome_iff_exists.mp hu.symName
  rw [processRelocationGeneral, processRelocationImpl, hname, Option.bind_some,
    if_neg (isUsual_cases hu.isUsual).2.1, hu.symAddress_eq, found]
  rcases hs.plainAddress hname with ⟨hresolve, hnone⟩ | ⟨a, s₁, haddress, hs₁, hwords, hresolve⟩
  · refine .inl ⟨by simp [hresolve], fun s' h => ?_⟩
    obtain ⟨⟨address, s₁⟩, haddress, h⟩ := Option.bind_eq_some_iff.mp h
    cases address with
    | none => cases h
    | some a => exact hnone a s₁ haddress
  · obtain ⟨s', happly, hs', hwords'⟩ := hu.applyRelocation hs₁ a
    rw [haddress, hresolve, Option.bind_some]
    exact .inr ⟨rfl, s', happly, hs', hwords ▸ hwords'⟩

/-- **A usual relocation** in each version. -/
theorem process_usual (slow : Bool) (mode : RelocMode) (hs : r.Coherent s) (hu : r.Usual reloc) :
    r.Runs ((r.resolve reloc).isSome = true) [r.found reloc] s (r.process slow mode reloc s) := by
  have hgeneral := processRelocationGeneral_usual hs hu
  rw [process]
  split
  · exact hgeneral
  · rw [processRelocation]
    split
    · exact hgeneral
    · next hmode =>
      obtain ⟨name, hname⟩ := Option.isSome_iff_exists.mp hu.symName
      rcases hs.plainAddress hname with ⟨hresolve, hnone⟩ | ⟨a, s₁, haddress, -, -, hresolve⟩
      · refine .inl ⟨by simp [hresolve], fun s' h => ?_⟩
        rw [processRelocationImpl, hname, Option.bind_some,
          if_neg (isUsual_cases hu.isUsual).2.1, hu.symAddress_eq] at h
        obtain ⟨⟨address, s₁⟩, haddress, h⟩ := Option.bind_eq_some_iff.mp h
        cases address with
        | none => cases h
        | some a => exact hnone a s₁ haddress
      · have hfast := processRelocationImpl_fast (s := s) hmode (fun name' hname' => by
          obtain rfl := Option.some.inj (hname.symm.trans hname')
          exact ⟨some a, s₁, hu.symAddress_eq false ▸ haddress⟩)
          fun _ => (isUsual_cases hu.isUsual).1
        obtain ⟨hnot, -⟩ | ⟨hok, s', hrun, hs', hwords⟩ := hgeneral
        · exact absurd (by rw [hresolve]; rfl) hnot
        · rw [hrun] at hfast
          generalize r.processRelocationImpl mode _ reloc s = x at hfast
          cases hfast with
          | some h =>
            cases h with
            | going heq => exact .inr ⟨hok, s', heq ▸ rfl, hs', hwords⟩

/-! ## Tables -/

theorem Runs.next {ok ok' : Prop} {xs ys : List (Assignment (Addr c) (Addr c))}
    {x : Option (Bool × RelocState c)} {f : RelocState c → Option (Bool × RelocState c)}
    (h : r.Runs ok xs s x) (hf : ∀ s', r.Coherent s' → r.Runs ok' ys s' (f s')) :
    r.Runs (ok ∧ ok') (xs ++ ys) s (RelocTables.next x f) := by
  obtain ⟨hnot, hfails⟩ | ⟨hok, s₁, rfl, hs₁, hwords⟩ := h
  · refine .inl ⟨fun h => hnot h.1, fun s' h => ?_⟩
    obtain ⟨⟨going, s₁⟩, hx, h⟩ := Option.bind_eq_some_iff.mp h
    cases going with
    | false => cases h
    | true => exact hfails s₁ hx
  · obtain ⟨hnot, hfails⟩ | ⟨hok', s', hrun, hs', hwords'⟩ := hf s₁ hs₁
    · exact .inl ⟨fun h => hnot h.2, hfails⟩
    · refine .inr ⟨⟨hok, hok'⟩, s', hrun, hs', ?_⟩
      rw [hwords', hwords, assignAll_append]

theorem Runs.congr {ok ok' : Prop} {xs : List (Assignment (Addr c) (Addr c))}
    {x : Option (Bool × RelocState c)} (h : r.Runs ok xs s x) (hok : ok ↔ ok') :
    r.Runs ok' xs s x := by
  rw [Runs, ← hok]
  exact h

theorem Process.plain_cons (p : Process c) (mode : RelocMode) (reloc : Rel c) (rels : List (Rel c))
    (s : RelocState c) : p.plain mode (reloc :: rels) s =
      RelocTables.next (p mode reloc s) (p.plain mode rels) := by
  rw [Process.plain, plainRelocate, Process.callback, Option.bind_some]
  rcases p mode reloc s with _ | ⟨_ | _, s'⟩ <;> rfl

theorem plain_usual (slow : Bool) (mode : RelocMode) {rels : List (Rel c)}
    (hrels : ∀ reloc ∈ rels, r.Usual reloc) (hs : r.Coherent s) :
    r.Runs (∀ reloc ∈ rels, (r.resolve reloc).isSome = true) (rels.map r.found) s
      ((r.process slow).plain mode rels s) := by
  induction rels generalizing s with
  | nil => exact .inr ⟨List.forall_mem_nil _, s, rfl, hs, rfl⟩
  | cons reloc rels ih =>
    obtain ⟨hreloc, hrels⟩ := List.forall_mem_cons.mp hrels
    rw [Process.plain_cons]
    refine Runs.congr ((process_usual slow mode hs hreloc).next fun s' hs' => ih hrels hs') ?_
    rw [List.forall_mem_cons]

/-- The assignment of a word of the table of relative relocations. -/
def relative (loadBias : Addr c) (k : Nat) : Assignment (Addr c) (Addr c) :=
  (Relr.address c k + loadBias, (· + loadBias))

theorem applyAll_relative {loadBias : Addr c} (hbias : loadBias.toNat % c.word = 0) (ks : List Nat)
    (m : Words c) :
    Relr.applyAll loadBias ks m = some (assignAll (ks.map (relative loadBias)) m) := by
  induction ks generalizing m with
  | nil => rfl
  | cons k ks ih =>
    rw [Relr.applyAll_cons, Relr.applyRelrReloc_eq hbias, Option.bind_some, ih]
    rfl

end Relocator

/-- Tables as a linker writes them, for packed relocations in groups and a list of words that are
relative. -/
structure RelocTables.Written (t : RelocTables c) (gs : List (Group c)) (ks : List Nat) : Prop where
  packed : t.androidRelocs = none ∧ gs = [] ∨ ∃ start rest,
    t.androidRelocs = some (signature ++ (packed start gs ++ rest)) ∧
      GroupsFit ⟨start, 0, 0⟩ gs ∧ (relocs gs).length < 2 ^ (8 * c.word)
  relr : t.relr = (Relr.encode c ks).map (BitVec.ofNat _)
  sorted : ks.SortedLT
  fit : ∀ k ∈ ks, k * c.word < 2 ^ (8 * c.word)

namespace RelocTables

/-- All relocations with symbols or addends. -/
def all (t : RelocTables c) (gs : List (Group c)) : List (Rel c) := relocs gs ++ t.rel ++ t.pltRel

variable {t : RelocTables c} {gs : List (Group c)} {ks : List Nat}

/-- The tables one after the other. -/
def assignments (t : RelocTables c) (r : Relocator c) (gs : List (Group c)) (ks : List Nat) :
    List (Assignment (Addr c) (Addr c)) :=
  (relocs gs).map r.found ++ ks.map (Relocator.relative r.si.loadBias) ++ t.rel.map r.found ++
    t.pltRel.map r.found

theorem Written.relocate (ht : t.Written gs ks) {r : Relocator c}
    (hbias : r.si.loadBias.toNat % c.word = 0) (husual : ∀ reloc ∈ t.all gs, r.Usual reloc)
    (slow : Bool) {s : RelocState c} (hs : r.Coherent s) :
    r.Runs (∀ reloc ∈ t.all gs, (r.resolve reloc).isSome = true) (t.assignments r gs ks) s
      (t.relocate r.si.loadBias (r.process slow) s) := by
  simp only [all, List.forall_mem_append] at husual ⊢
  obtain ⟨⟨hpacked, hrel⟩, hplt⟩ := husual
  have handroid : t.relocateAndroid (r.process slow) s =
      (r.process slow).plain .typical (relocs gs) s := by
    rw [relocateAndroid]
    obtain ⟨hnone, rfl⟩ | ⟨start, rest, hsome, hfit, htotal⟩ := ht.packed
    · rw [hnone]
      rfl
    · rw [hsome]
      dsimp only
      have htake : (signature ++ (PackedRelocs.packed start gs ++ rest)).take 4 = signature := rfl
      have hdrop : (signature ++ (PackedRelocs.packed start gs ++ rest)).drop 4 =
          PackedRelocs.packed start gs ++ rest := rfl
      rw [if_pos htake, hdrop, Process.packed, forAllPackedRelocs_packed _ hfit htotal,
        Option.bind_some, Process.plain]
  have hrelr (s : RelocState c) (hs : r.Coherent s) :
      r.Runs True (ks.map (Relocator.relative r.si.loadBias)) s
        (Relocator.stored s (Relr.relocateRelr r.si.loadBias t.relr s.words)) := by
    rw [ht.relr, Relr.relocateRelr_eq_applyAll ht.sorted ht.fit,
      Relocator.applyAll_relative hbias]
    exact .inr ⟨trivial, _, rfl, hs.words _, rfl⟩
  rw [RelocTables.relocate, handroid]
  have hruns := (((Relocator.plain_usual slow .typical hpacked hs).next hrelr).next
    fun s hs => Relocator.plain_usual slow .typical hrel hs).next
    fun s hs => Relocator.plain_usual slow .jumpTable hplt hs
  exact hruns.congr (by rw [and_true])

end RelocTables

namespace Relocator

variable {r : Relocator c} {t : RelocTables c} {gs : List (Group c)} {ks : List Nat}

end Relocator

end McpeLauncher.Linker
