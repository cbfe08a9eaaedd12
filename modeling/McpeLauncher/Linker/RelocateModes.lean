import McpeLauncher.Linker.GnuHash
import McpeLauncher.Linker.Relocate

/-!
# The fast ways to relocate

The fast versions of `process_relocation_impl` look a symbol up, and leave a relocation that they do
not handle to the general version, which looks the symbol up again, from the last search. Both ways
through all tables of a library agree with the plain one: the general version for each relocation,
which searches for each symbol.
-/

namespace McpeLauncher.Linker
open Elf

variable {c : ElfClass}

/-! ## Two callbacks in one loop -/

namespace PackedRelocs

variable {σ τ : Type} {R E : σ → τ → Prop}

/-- Both go on, with states in a relation, or both end, with states in another one. -/
inductive Agree (R E : σ → τ → Prop) : Bool × σ → Bool × τ → Prop
  | going {s : σ} {t : τ} : R s t → Agree R E (true, s) (true, t)
  | ended {s : σ} {t : τ} : E s t → Agree R E (false, s) (false, t)

variable {f : Callback c σ} {g : Callback c τ}

theorem plainRelocate_agree
    (hagree : ∀ reloc s t, R s t → Agree R E (f reloc s) (g reloc t)) (rels : List (Rel c))
    {s : σ} {t : τ} (h : R s t) : Agree R E (plainRelocate f rels s) (plainRelocate g rels t) := by
  induction rels generalizing s t with
  | nil => exact .going h
  | cons reloc rels ih =>
    rw [plainRelocate, plainRelocate]
    have hfirst := hagree reloc s t h
    generalize f reloc s = x at hfirst
    generalize g reloc t = y at hfirst
    cases hfirst with
    | going h => exact ih h
    | ended h => exact .ended h

theorem rel_bind {α β γ : Type} {Q : β → γ → Prop} (x : Option α) {p : α → Option β}
    {q : α → Option γ} (h : ∀ a, Option.Rel Q (p a) (q a)) :
    Option.Rel Q (x.bind p) (x.bind q) := by
  cases x with
  | none => exact .none
  | some a => exact h a

theorem forGroup_agree
    (hagree : ∀ reloc s t, R s t → Agree R E (f reloc s) (g reloc t)) (flags delta : Addr c)
    (n : Nat) (reloc : Rel c) (decoder : List UInt8) {s : σ} {t : τ} (h : R s t) :
    Option.Rel (fun x y => Agree R E (x.1, x.2.2.2) (y.1, y.2.2.2) ∧
      (x.1 = true → x.2.1 = y.2.1 ∧ x.2.2.1 = y.2.2.1))
      (forGroup f flags delta n reloc decoder s) (forGroup g flags delta n reloc decoder t) := by
  induction n generalizing reloc decoder s t with
  | zero => exact .some ⟨.going h, fun _ => ⟨rfl, rfl⟩⟩
  | succ n ih =>
    rw [forGroup, forGroup]
    refine rel_bind _ fun x => rel_bind _ fun y => rel_bind _ fun z => ?_
    obtain ⟨offset, decoder⟩ := x
    obtain ⟨info, decoder⟩ := y
    obtain ⟨addend, decoder⟩ := z
    have hfirst := hagree ⟨reloc.offset + offset, info, reloc.addend + addend⟩ s t h
    dsimp only
    generalize f _ s = x at hfirst
    generalize g _ t = y at hfirst
    cases hfirst with
    | going h => exact ih _ _ h
    | ended h => exact .some ⟨.ended h, fun h => absurd h Bool.false_ne_true⟩

theorem forGroups_agree
    (hagree : ∀ reloc s t, R s t → Agree R E (f reloc s) (g reloc t)) (numRelocs : Addr c)
    (fuel : Nat) (idx : Addr c) (reloc : Rel c) (decoder : List UInt8) {s : σ} {t : τ}
    (h : R s t) : Option.Rel (Agree R E) (forGroups f numRelocs fuel idx reloc decoder s)
      (forGroups g numRelocs fuel idx reloc decoder t) := by
  induction fuel generalizing idx reloc decoder s t with
  | zero => exact .none
  | succ fuel ih =>
    rw [forGroups, forGroups]
    split
    · refine rel_bind _ fun x => rel_bind _ fun y => rel_bind _ fun z => rel_bind _ fun v =>
        rel_bind _ fun w => ?_
      obtain ⟨size, decoder⟩ := x
      obtain ⟨flags, decoder⟩ := y
      obtain ⟨delta, decoder⟩ := z
      obtain ⟨info, decoder⟩ := v
      obtain ⟨addend, decoder⟩ := w
      have hgroup := forGroup_agree hagree flags delta size.toNat ⟨reloc.offset, info, addend⟩
        decoder h
      dsimp only [Option.bind_eq_bind]
      generalize forGroup f _ _ _ _ _ s = x at hgroup
      generalize forGroup g _ _ _ _ _ t = y at hgroup
      cases hgroup with
      | none => exact .none
      | @some x y hxy =>
        obtain ⟨goingX, relocX, decoderX, sX⟩ := x
        obtain ⟨goingY, relocY, decoderY, sY⟩ := y
        obtain ⟨hboth, hsame⟩ := hxy
        cases hboth with
        | going h =>
          obtain ⟨rfl, rfl⟩ := hsame rfl
          exact ih _ _ _ h
        | ended h => exact .some (.ended h)
    · exact .some (.going h)

/-- A packed table gives both callbacks the same relocations. -/
theorem forAllPackedRelocs_agree
    (hagree : ∀ reloc s t, R s t → Agree R E (f reloc s) (g reloc t)) (decoder : List UInt8)
    {s : σ} {t : τ} (h : R s t) :
    Option.Rel (Agree R E) (forAllPackedRelocs f decoder s) (forAllPackedRelocs g decoder t) :=
  rel_bind _ fun _ => rel_bind _ fun _ => forGroups_agree hagree _ _ _ _ _ h

end PackedRelocs

open PackedRelocs

/-! ## The last search -/

namespace RelocState

variable {s t : RelocState c}

theorem remember_remember (rSym : Nat) (found : Option (SoInfo c × SoInfo.Found c)) :
    (s.remember rSym found).remember rSym found = s.remember rSym found := by
  rw [remember, remember]
  congr 1
  cases found with
  | none => rfl
  | some p =>
    dsimp only [Option.bind_some]
    cases p.2.orig with
    | none => rfl
    | some orig => exact Function.update_idem ..

theorem forget_words (words : Words c) :
    { s with words }.forget = { s.forget with words } := rfl

theorem words_eq_of_forget_eq (h : s.forget = t.forget) : s.words = t.words :=
  (RelocState.mk.inj h).1

end RelocState

namespace Relocator

variable {r : Relocator c} {s t s' : RelocState c} {rSym : Nat} {name : Name}

/-- What is kept is what another search would find. -/
def Coherent (r : Relocator c) (s : RelocState c) : Prop :=
  s.cacheSymVal ≠ 0 → ∀ name, r.si.getString (r.si.symtab s.cacheSymVal).stName = some name →
    r.searchSymbol s.cacheSymVal name s = some (some s)

theorem coherent_forget (s : RelocState c) : r.Coherent s.forget := fun h => absurd rfl h

theorem searchSymbol_words (words : Words c) : r.searchSymbol rSym name { s with words } =
    (r.searchSymbol rSym name s).map (Option.map fun s => { s with words }) := by
  rw [searchSymbol, searchSymbol]
  cases r.lookupVersionInfo rSym with
  | none => rfl
  | some vi =>
    dsimp only
    cases soinfoDoLookup name vi r.lookupList <;> rfl

theorem Coherent.words (h : r.Coherent s) (words : Words c) : r.Coherent { s with words } := by
  intro hne name hname
  rw [searchSymbol_words, h hne name hname]
  rfl

theorem searchSymbol_forget : r.searchSymbol rSym name s.forget = r.searchSymbol rSym name s := rfl

/-- After a search the same search changes nothing. -/
theorem searchSymbol_again (h : r.searchSymbol rSym name s = some (some s')) :
    s'.cacheSymVal = rSym ∧ r.searchSymbol rSym name s' = some (some s') := by
  rw [searchSymbol] at h
  rw [searchSymbol]
  cases hvi : r.lookupVersionInfo rSym with
  | none => rw [hvi] at h; cases h
  | some vi =>
    rw [hvi] at h
    obtain ⟨found, hfound, hs'⟩ := Option.map_eq_some_iff.mp h
    obtain rfl := Option.some.inj hs'
    refine ⟨rfl, ?_⟩
    dsimp only
    rw [hfound, Option.map_some, RelocState.remember_remember]

/-- The last search is not seen. -/
theorem Coherent.findSymbol_eq (h : r.Coherent s) (hsym : rSym ≠ 0)
    (hname : r.si.getString (r.si.symtab rSym).stName = some name) :
    r.findSymbol rSym name s = r.searchSymbol rSym name s := by
  rw [findSymbol]
  split
  · next hhit =>
    subst hhit
    exact (h hsym name hname).symm
  · rfl

theorem Coherent.findSymbol_forget (h : r.Coherent s) (hsym : rSym ≠ 0)
    (hname : r.si.getString (r.si.symtab rSym).stName = some name) :
    r.findSymbol rSym name s.forget = r.findSymbol rSym name s := by
  rw [h.findSymbol_eq hsym hname, (coherent_forget s).findSymbol_eq hsym hname,
    searchSymbol_forget]

theorem Coherent.findSymbol (h : r.Coherent s)
    (hname : r.si.getString (r.si.symtab rSym).stName = some name)
    (hfind : r.findSymbol rSym name s = some (some s')) :
    r.Coherent s' ∧ s'.cacheSymVal = rSym := by
  rw [Relocator.findSymbol] at hfind
  split at hfind
  · next hhit =>
    obtain rfl := Option.some.inj (Option.some.inj hfind)
    exact ⟨h, hhit.symm⟩
  · obtain ⟨hsym, hagain⟩ := searchSymbol_again hfind
    refine ⟨fun _ name' hname' => ?_, hsym⟩
    rw [hsym] at hname' ⊢
    obtain rfl := Option.some.inj (hname.symm.trans hname')
    exact hagain

/-! ## The general version without the last search -/

/-- Two results of a search agree, and the first state may go on. -/
def SameResult {α : Type} (r : Relocator c) (x y : α × RelocState c) : Prop :=
  x.1 = y.1 ∧ r.Coherent x.2 ∧ x.2.forget = y.2.forget

theorem Coherent.lookupSymbol_forget (h : r.Coherent s) (hsym : rSym ≠ 0)
    (hname : r.si.getString (r.si.symtab rSym).stName = some name) :
    Option.Rel r.SameResult (r.lookupSymbol rSym name s) (r.lookupSymbol rSym name s.forget) := by
  rw [lookupSymbol, lookupSymbol, h.findSymbol_forget hsym hname]
  cases hfind : r.findSymbol rSym name s with
  | none => exact .none
  | some found =>
    cases found with
    | none => exact .some ⟨rfl, h, rfl⟩
    | some s' => exact .some ⟨rfl, (h.findSymbol hname hfind).1, rfl⟩

theorem rel_map {α β γ δ : Type} {P : α → β → Prop} {Q : γ → δ → Prop} {x : Option α} {y : Option β}
    (h : Option.Rel P x y) {p : α → γ} {q : β → δ} (hpq : ∀ a b, P a b → Q (p a) (q b)) :
    Option.Rel Q (x.map p) (y.map q) := by
  cases h with
  | some h => exact .some (hpq _ _ h)
  | none => exact .none

theorem Coherent.symAddress_forget (h : r.Coherent s) {reloc : Rel c}
    (hname : r.symName reloc = some name) :
    Option.Rel r.SameResult (r.symAddress true reloc name s)
      (r.symAddress true reloc name s.forget) := by
  have hlookup (hsym : relSym reloc ≠ 0) := by
    rw [symName, if_neg hsym] at hname
    exact h.lookupSymbol_forget hsym hname
  rw [symAddress, symAddress]
  split
  · rw [tlsAddress, tlsAddress]
    split
    · exact .some ⟨rfl, h, rfl⟩
    · next hsym =>
      split
      · exact .some ⟨rfl, h, rfl⟩
      · refine rel_map (hlookup hsym) fun (found, s) (found', t) hsame => ?_
        obtain ⟨rfl, hs, hst⟩ := hsame
        rcases found with _ | _ | ⟨lib, sym⟩ <;> exact ⟨rfl, hs, hst⟩
  · rw [plainAddress, plainAddress]
    split
    · exact .some ⟨rfl, h, rfl⟩
    · next hsym =>
      refine rel_map (hlookup hsym) fun (found, s) (found', t) hsame => ?_
      obtain ⟨rfl, hs, hst⟩ := hsame
      rcases found with _ | _ | ⟨lib, sym⟩ <;> exact ⟨rfl, hs, hst⟩

/-- Two ways to process a relocation agree. What a failure leaves is not compared. -/
abbrev Agrees (r : Relocator c) (x y : Option (Bool × RelocState c)) : Prop :=
  Option.Rel (Agree (fun s t => r.Coherent s ∧ s.forget = t.forget) fun _ _ => True) x y

theorem agrees_stored (hs : r.Coherent s) (hst : s.forget = t.forget) (words : Option (Words c)) :
    r.Agrees (stored s words) (stored t words) := by
  cases words with
  | none => exact .none
  | some words =>
    refine .some (.going ⟨hs.words words, ?_⟩)
    rw [RelocState.forget_words, hst]
    rfl

theorem agrees_processOther (hs : r.Coherent s) (hst : s.forget = t.forget) (reloc : Rel c)
    (symAddr : Addr c) :
    r.Agrees (r.processOther reloc symAddr s) (r.processOther reloc symAddr t) := by
  have hwords : s.words = t.words := RelocState.words_eq_of_forget_eq hst
  rw [processOther, processOther, hwords]
  split
  · split
    · exact .some (.going ⟨hs, hst⟩)
    · exact agrees_stored hs hst _
  · split
    · exact .none
    · exact .some (.ended trivial)
  · exact agrees_stored hs hst _
  · split <;> exact agrees_stored hs hst _
  · exact .some (.ended trivial)

theorem agrees_applyRelocation {x y : Option (Addr c) × RelocState c} (h : r.SameResult x y)
    (reloc : Rel c) :
    r.Agrees (r.applyRelocation .general (r.processOther reloc) reloc x)
      (r.applyRelocation .general (r.processOther reloc) reloc y) := by
  obtain ⟨address, s⟩ := x
  obtain ⟨address', t⟩ := y
  obtain ⟨rfl, hs, hst⟩ := h
  have hwords : s.words = t.words := RelocState.words_eq_of_forget_eq hst
  cases address with
  | none => exact .some (.ended trivial)
  | some symAddr =>
    rw [applyRelocation, applyRelocation]
    split
    · exact .some (.going ⟨hs, hst⟩)
    · split
      · rw [hwords]
        exact agrees_stored hs hst _
      · exact agrees_processOther hs hst reloc symAddr

theorem rel_bind_rel {α β γ δ : Type} {P : α → β → Prop} {Q : γ → δ → Prop} {x : Option α}
    {y : Option β} (h : Option.Rel P x y) {p : α → Option γ} {q : β → Option δ}
    (hpq : ∀ a b, P a b → Option.Rel Q (p a) (q b)) : Option.Rel Q (x.bind p) (y.bind q) := by
  cases h with
  | some h => exact hpq _ _ h
  | none => exact .none

/-- **The last search makes no difference** for the general version. -/
theorem Coherent.processRelocationGeneral_forget (h : r.Coherent s) (reloc : Rel c) :
    r.Agrees (r.processRelocationGeneral reloc s) (r.processRelocationGeneral reloc s.forget) := by
  rw [processRelocationGeneral, processRelocationGeneral, processRelocationImpl,
    processRelocationImpl]
  cases hname : r.symName reloc with
  | none => exact .none
  | some name =>
    rw [Option.bind_some, Option.bind_some]
    split
    · exact .some (.going ⟨h, rfl⟩)
    · refine rel_bind_rel (h.symAddress_forget hname) fun x y hxy => ?_
      exact agrees_applyRelocation hxy reloc

/-! ## The fast versions -/

/-- Every search for a C string ends with an answer. -/
def Searchable (r : Relocator c) : Prop :=
  ∀ name, 0 ∉ name → ∀ vi, ∃ found, soinfoDoLookup name vi r.lookupList = some found

theorem Searchable.lookupSymbol (h : r.Searchable) (hname : 0 ∉ name) (rSym : Nat)
    (s : RelocState c) : ∃ found s', r.lookupSymbol rSym name s = some (found, s') := by
  rw [Relocator.lookupSymbol, findSymbol, searchSymbol]
  split
  · exact ⟨_, _, rfl⟩
  · cases r.lookupVersionInfo rSym with
    | none => exact ⟨_, _, rfl⟩
    | some vi =>
      obtain ⟨found, hfound⟩ := h name hname vi
      dsimp only
      rw [hfound]
      exact ⟨_, _, rfl⟩

/-- The symbol that was found is found again. -/
theorem lookupSymbol_again {found : Option (SoInfo c × Sym c)}
    (h : r.lookupSymbol rSym name s = some (some found, s')) :
    r.lookupSymbol rSym name s' = some (some found, s') := by
  rw [lookupSymbol] at h
  obtain ⟨state, hfind, hstate⟩ := Option.map_eq_some_iff.mp h
  cases state with
  | none => cases hstate
  | some s'' =>
    obtain rfl : s'' = s' := congrArg Prod.snd hstate
    have hsym : rSym = s''.cacheSymVal := by
      rw [findSymbol] at hfind
      split at hfind
      · next hhit =>
        obtain rfl := Option.some.inj (Option.some.inj hfind)
        exact hhit
      · exact (searchSymbol_again hfind).1.symm
    rw [lookupSymbol, findSymbol, if_pos hsym, Option.map_some]
    exact congrArg some hstate

/-- The same end, in the same state unless it is a failure. -/
abbrev SameEnd (x y : Option (Bool × RelocState c)) : Prop :=
  Option.Rel (Agree Eq fun _ _ => True) x y

theorem sameEnd_rfl (x : Option (Bool × RelocState c)) : SameEnd x x := by
  rcases x with _ | ⟨_ | _, s⟩
  · exact .none
  · exact .some (.ended trivial)
  · exact .some (.going rfl)

variable {reloc : Rel c} {mode : RelocMode}

theorem zero_not_mem_symName (h : r.symName reloc = some name) : 0 ∉ name := by
  rw [symName] at h
  split at h
  · obtain rfl := Option.some.inj h
    exact List.not_mem_nil
  · rw [SoInfo.getString] at h
    split at h
    · dsimp only at h
      split at h
      · obtain rfl := Option.some.inj h
        exact Terminated.not_mem_upTo 0 _
      · cases h
    · cases h

theorem Searchable.symAddress_fast (h : r.Searchable) (hname : r.symName reloc = some name)
    (s : RelocState c) : ∃ address s', r.symAddress false reloc name s = some (address, s') := by
  rw [symAddress, Bool.false_and, if_neg Bool.false_ne_true, plainAddress]
  split
  · exact ⟨_, _, rfl⟩
  · obtain ⟨found, s', hfound⟩ := h.lookupSymbol (zero_not_mem_symName hname) (relSym reloc) s
    rw [hfound, Option.map_some]
    exact ⟨_, _, rfl⟩

/-- The search of a fast version. -/
theorem symAddress_fast {address : Option (Addr c)}
    (h : r.symAddress false reloc name s = some (address, s')) :
    relSym reloc = 0 ∧ s' = s ∧ address.isSome ∨
      relSym reloc ≠ 0 ∧ ∃ found, r.lookupSymbol (relSym reloc) name s = some (found, s') ∧
        (found.isSome = address.isSome) := by
  rw [symAddress, Bool.false_and, if_neg Bool.false_ne_true, plainAddress] at h
  split at h
  · next hsym =>
    obtain ⟨rfl, rfl⟩ := Prod.mk.inj (Option.some.inj h)
    exact .inl ⟨hsym, rfl, rfl⟩
  · next hsym =>
    obtain ⟨⟨found, s''⟩, hfound, haddress⟩ := Option.map_eq_some_iff.mp h
    refine .inr ⟨hsym, found, ?_⟩
    rcases found with _ | _ | ⟨lib, sym⟩ <;> obtain ⟨rfl, rfl⟩ := Prod.mk.inj haddress <;>
      exact ⟨hfound, rfl⟩

/-- Where the search of a fast version fails, the general one fails. -/
theorem processRelocationGeneral_fails (hname : r.symName reloc = some name)
    (hkind : r.type reloc ≠ .none) (h : r.symAddress false reloc name s = some (none, s')) :
    SameEnd (some (false, s')) (r.processRelocationGeneral reloc s) := by
  obtain ⟨-, -, habsurd⟩ | ⟨hsym, found, hfound, hnone⟩ := symAddress_fast h
  · cases habsurd
  · obtain rfl : found = none := Option.not_isSome_iff_eq_none.mp (by simp [hnone])
    rw [processRelocationGeneral, processRelocationImpl, hname, Option.bind_some, if_neg hkind,
      symAddress]
    split
    · rw [tlsAddress, if_neg hsym]
      split
      · exact .some (.ended trivial)
      · rw [hfound]
        exact .some (.ended trivial)
    · rw [plainAddress, if_neg hsym, hfound]
      exact .some (.ended trivial)

/-- After a search the general version may begin again. -/
theorem processRelocationGeneral_again (hname : r.symName reloc = some name)
    (hkind : r.type reloc ≠ .none) {symAddr : Addr c}
    (h : r.symAddress false reloc name s = some (some symAddr, s')) :
    SameEnd (r.processRelocationGeneral reloc s') (r.processRelocationGeneral reloc s) := by
  obtain ⟨-, rfl, -⟩ | ⟨hsym, found, hfound, hsome⟩ := symAddress_fast h
  · exact sameEnd_rfl _
  · obtain ⟨found, rfl⟩ := Option.isSome_iff_exists.mp hsome
    rw [processRelocationGeneral, processRelocationGeneral, processRelocationImpl,
      processRelocationImpl, hname, Option.bind_some, Option.bind_some, if_neg hkind, if_neg hkind,
      symAddress, symAddress]
    split
    · rw [tlsAddress, tlsAddress, if_neg hsym, if_neg hsym]
      split
      · exact .some (.ended trivial)
      · rw [hfound, lookupSymbol_again hfound]
        exact sameEnd_rfl _
    · rw [plainAddress, plainAddress, if_neg hsym, if_neg hsym, hfound, lookupSymbol_again hfound]
      exact sameEnd_rfl _

theorem handles_general (h : mode.handles (r.type reloc)) :
    RelocMode.general.handles (r.type reloc) = true ∧ (r.type reloc).isTls = false ∧
      r.type reloc ≠ .pc32 := by
  revert h
  cases mode <;> cases r.type reloc <;> decide

/-- Where no relocation is left to the general version, both versions have the same address. -/
theorem symAddress_general (hlinked : r.isLinked = true → (r.type reloc).isTls = false)
    (h : r.isLinked = true ∨ mode.handles (r.type reloc) = true) :
    r.symAddress true reloc name s = r.symAddress false reloc name s := by
  have htls : (r.type reloc).isTls = false := h.elim hlinked fun h => (handles_general h).2.1
  have hpc32 : (!r.isLinked && decide (r.type reloc = .pc32)) = false := by
    rcases h with h | h
    · rw [h]
      rfl
    · rw [decide_eq_false (handles_general h).2.2, Bool.and_false]
  simp only [symAddress, htls, Bool.and_false, plainAddress, Bool.and_assoc, hpc32]

/-- **A fast version** ends like the general one. -/
theorem processRelocationImpl_fast (hmode : mode ≠ .general)
    (hsearch : ∀ name, r.symName reloc = some name →
      ∃ address s', r.symAddress false reloc name s = some (address, s'))
    (hlinked : r.isLinked = true → (r.type reloc).isTls = false) :
    SameEnd (r.processRelocationImpl mode (fun _ s => r.processRelocationGeneral reloc s) reloc s)
      (r.processRelocationGeneral reloc s) := by
  rw [processRelocationImpl, decide_eq_false hmode]
  cases hname : r.symName reloc with
  | none =>
    rw [processRelocationGeneral, processRelocationImpl, hname]
    exact .none
  | some name =>
    rw [Option.bind_some]
    split
    · next hnone =>
      rw [processRelocationGeneral, processRelocationImpl, hname, Option.bind_some, if_pos hnone]
      exact sameEnd_rfl _
    · next hkind =>
      obtain ⟨address, s', haddress⟩ := hsearch name hname
      rw [haddress, Option.bind_some]
      cases address with
      | none => exact processRelocationGeneral_fails hname hkind haddress
      | some symAddr =>
        have hagain := processRelocationGeneral_again hname hkind haddress
        rw [applyRelocation]
        by_cases hrest : r.isLinked = true ∨ mode.handles (r.type reloc) = true
        · -- the general version gets as far with the same address
          rw [← symAddress_general hlinked hrest] at haddress
          have hgeneral : r.processRelocationGeneral reloc s =
              r.applyRelocation .general (r.processOther reloc) reloc (some symAddr, s') := by
            rw [processRelocationGeneral, processRelocationImpl, hname, Option.bind_some,
              if_neg hkind, decide_eq_true rfl, haddress, Option.bind_some]
          split
          · next hskip =>
            rw [hgeneral, applyRelocation, if_pos hskip]
            exact sameEnd_rfl _
          · next hskip =>
            split
            · next hhandles =>
              rw [hgeneral, applyRelocation, if_neg hskip, if_pos (handles_general hhandles).1]
              exact sameEnd_rfl _
            · exact hagain
        · obtain ⟨hnot, hother⟩ := not_or.mp hrest
          rw [if_neg (by simp [hnot]), if_neg hother]
          exact hagain

/-! ## All tables -/

/-- Each relocation by the general version, with a search of its own. -/
def plainProcess (r : Relocator c) : Process c :=
  fun _ reloc s => r.processRelocationGeneral reloc s.forget

theorem process_agrees (slow : Bool) (hsearch : r.Searchable)
    (hlinked : r.isLinked = true → (r.type reloc).isTls = false) (hs : r.Coherent s)
    (hst : s.forget = t.forget) :
    r.Agrees (r.process slow mode reloc s) (r.plainProcess mode reloc t) := by
  have hgeneral := hs.processRelocationGeneral_forget reloc
  rw [hst] at hgeneral
  have hslow : r.Agrees (r.processRelocationGeneral reloc s) (r.plainProcess mode reloc t) :=
    hgeneral
  generalize r.plainProcess mode reloc t = z at hslow
  rw [process]
  split
  · exact hslow
  · rw [processRelocation]
    split
    · exact hslow
    · next hmode =>
      have hfast := processRelocationImpl_fast (s := s) hmode
        (fun name hname => hsearch.symAddress_fast hname s) hlinked
      generalize r.processRelocationImpl mode _ reloc s = x at hfast
      generalize r.processRelocationGeneral reloc s = y at hfast hslow
      cases hfast with
      | none => exact hslow
      | some hxy =>
        cases hxy with
        | going h => exact h ▸ hslow
        | ended =>
          cases hslow with
          | some h =>
            cases h with
            | ended => exact .some (.ended trivial)

theorem agrees_next {x y : Option (Bool × RelocState c)}
    {f g : RelocState c → Option (Bool × RelocState c)} (h : r.Agrees x y)
    (hfg : ∀ s t, r.Coherent s → s.forget = t.forget → r.Agrees (f s) (g t)) :
    r.Agrees (RelocTables.next x f) (RelocTables.next y g) := by
  refine rel_bind_rel h fun x y hxy => ?_
  cases hxy with
  | going h => exact hfg _ _ h.1 h.2
  | ended => exact .some (.ended trivial)

/-- What the loops over tables hand on. -/
inductive Running (r : Relocator c) : Option (RelocState c) → Option (RelocState c) → Prop
  | intro {s t : RelocState c} : r.Coherent s → s.forget = t.forget → Running r (some s) (some t)

/-- Both loops fail, or both processes stop. -/
def Ended (x y : Option (RelocState c)) : Prop := x.isSome = y.isSome

section
variable {p q : Process c} (hpq : ∀ mode reloc s t, r.Coherent s → s.forget = t.forget →
  r.Agrees (p mode reloc s) (q mode reloc t))
include hpq

theorem callback_agree (mode : RelocMode) (reloc : Rel c) (x y : Option (RelocState c))
    (h : r.Running x y) :
    Agree r.Running Ended (p.callback mode reloc x) (q.callback mode reloc y) := by
  obtain ⟨hs, hst⟩ := h
  have hboth := hpq mode reloc _ _ hs hst
  rw [Process.callback, Process.callback, Option.bind_some, Option.bind_some]
  generalize p mode reloc _ = x at hboth
  generalize q mode reloc _ = y at hboth
  cases hboth with
  | none => exact .ended rfl
  | some h =>
    cases h with
    | going h => exact .going (.intro h.1 h.2)
    | ended => exact .ended rfl

omit hpq in
theorem ofLoop_agree {x y : Bool × Option (RelocState c)} (h : Agree r.Running Ended x y) :
    r.Agrees (Process.ofLoop x) (Process.ofLoop y) := by
  cases h with
  | going h =>
    obtain ⟨hs, hst⟩ := h
    exact .some (.going ⟨hs, hst⟩)
  | @ended x y h =>
    cases x <;> cases y
    · exact .none
    · cases h
    · cases h
    · exact .some (.ended trivial)

theorem plain_agrees (mode : RelocMode) (rels : List (Rel c)) (hs : r.Coherent s)
    (hst : s.forget = t.forget) : r.Agrees (p.plain mode rels s) (q.plain mode rels t) :=
  ofLoop_agree (plainRelocate_agree (callback_agree hpq mode) rels (.intro hs hst))

theorem packed_agrees (mode : RelocMode) (relocs : List UInt8) (hs : r.Coherent s)
    (hst : s.forget = t.forget) : r.Agrees (p.packed mode relocs s) (q.packed mode relocs t) :=
  rel_bind_rel (forAllPackedRelocs_agree (callback_agree hpq mode) relocs (.intro hs hst))
    fun _ _ => ofLoop_agree

theorem tables_agree (tables : RelocTables c) (loadBias : Addr c) (hs : r.Coherent s)
    (hst : s.forget = t.forget) :
    r.Agrees (tables.relocate loadBias p s) (tables.relocate loadBias q t) := by
  refine agrees_next (agrees_next (agrees_next ?_ fun s t hs hst => ?_)
    fun s t => plain_agrees hpq _ _) fun s t => plain_agrees hpq _ _
  · rw [RelocTables.relocateAndroid, RelocTables.relocateAndroid]
    split
    · exact .some (.going ⟨hs, hst⟩)
    · split
      · exact packed_agrees hpq _ _ hs hst
      · exact .some (.ended trivial)
  · rw [RelocState.words_eq_of_forget_eq hst]
    exact agrees_stored hs hst _

end

/-- Whether it succeeds, and what is in memory then. -/
def memory (x : Option (Bool × RelocState c)) : Option (Option (Words c × (Nat → Addr c))) :=
  x.map fun (going, s) => if going then some (s.words, s.origs) else none

theorem Agrees.memory {x y : Option (Bool × RelocState c)} (h : r.Agrees x y) :
    memory x = memory y := by
  cases h with
  | none => rfl
  | some h =>
    cases h with
    | going h =>
      have hmemory := RelocState.mk.inj h.2
      simp only [Relocator.memory, Option.map_some, if_true, hmemory.1, hmemory.2.1]
    | ended => rfl

/-- **Relocating a library that is being loaded** does what the general version does to each
relocation with a search of its own: neither the last search nor the fast versions are seen. -/
theorem relocate_eq_plain (hsearch : r.Searchable) (hlinked : r.isLinked = false) (slow : Bool)
    (tables : RelocTables c) (words : Words c) (origs : Nat → Addr c) :
    memory (r.relocate slow tables words origs) =
      memory (r.relocateWith plainProcess tables words origs) := by
  rw [relocate, relocateWith, relocateWith]
  split
  · rfl
  · next versionTracker _ =>
    have hsearch' : Searchable { r with versionTracker } := hsearch
    refine Agrees.memory (r := { r with versionTracker }) (tables_agree (fun mode reloc s t hs hst =>
      ?_) tables _ (fun h => absurd rfl h) rfl)
    exact process_agrees slow hsearch' (fun h => absurd h (by simp [hlinked])) hs hst

end Relocator

/-! ## A run -/

/-- Searches in libraries with well-formed GNU hash tables end. -/
theorem exists_findFirst {libs : List (SoInfo c)}
    (hlibs : ∀ lib ∈ libs, lib.needsSysvLookup = false ∧ lib.Valid ∧
      ∃ symoffset n names, lib.WellFormed symoffset n names) (name : Name)
    (vi : Option VersionInfo) : ∃ found, findFirst name vi libs = some found := by
  induction libs with
  | nil => exact ⟨_, rfl⟩
  | cons lib libs ih =>
    obtain ⟨⟨hneeds, hvalid, symoffset, n, names, hformed⟩, hlibs⟩ := List.forall_mem_cons.mp hlibs
    obtain ⟨hgnu, hsymbols⟩ := SoInfo.needsSysvLookup_eq_false hneeds
    obtain ⟨version, hversion⟩ := hvalid.findVerdefVersionIndex vi
    rw [findFirst, SoInfo.findSymbolByName_of_gnuHash hgnu hsymbols,
      hformed.gnuLookup_eq hversion, Option.map_some, Option.bind_eq_bind, Option.bind_some]
    split
    · exact ⟨_, rfl⟩
    · exact ih hlibs

theorem Relocator.searchable_of_wellFormed {r : Relocator c}
    (hlibs : ∀ lib ∈ r.lookupList.searched, lib.needsSysvLookup = false ∧ lib.Valid ∧
      ∃ symoffset n names, lib.WellFormed symoffset n names) : r.Searchable := by
  intro name hname vi
  rw [soinfoDoLookup, soinfoDoLookupImpl_eq hname vi (fun lib hlib => (hlibs lib hlib).2.1)
    fun _ lib hlib => (hlibs lib hlib).1]
  exact exists_findFirst hlibs name vi

/-- The library with one symbol, relocated by itself. -/
def oneSymbolRelocator : Relocator .ELF64 where
  machine := .x86_64
  si := oneSymbolLib
  isLinked := false
  isLinker := false
  hasTls _ := false
  versionTracker := []
  lookupList := .ofLib false oneSymbolLib
  callIfuncResolver := id

theorem oneSymbolRelocator_searchable : oneSymbolRelocator.Searchable := by
  refine Relocator.searchable_of_wellFormed fun lib hlib => ?_
  obtain rfl : lib = oneSymbolLib := List.mem_singleton.mp hlib
  exact ⟨rfl, oneSymbolLib_valid, 1, 2, _, SoInfo.oneSymbolLib_wellFormed⟩

/-- Tables with an address of the symbol, two of the library, and a slot of the symbol. -/
def oneSymbolTables : RelocTables .ELF64 where
  sonames := []
  verneeds := []
  androidRelocs := none
  relr := (Relr.encode .ELF64 [35]).map (BitVec.ofNat _)
  rel := [⟨0x100, 0x100000001, 4⟩, ⟨0x108, 8, 0x20⟩]
  pltRel := [⟨0x110, 0x100000007, 0⟩]

theorem relocate_oneSymbolLib :
    Relocator.memory (oneSymbolRelocator.relocate false oneSymbolTables (fun a => a) fun _ => 0) =
      Relocator.memory (oneSymbolRelocator.relocateWith Relocator.plainProcess oneSymbolTables
        (fun a => a) fun _ => 0) :=
  Relocator.relocate_eq_plain oneSymbolRelocator_searchable rfl false oneSymbolTables _ _

end McpeLauncher.Linker
