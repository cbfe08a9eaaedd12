import McpeLauncher.Linker.Sleb128

/-!
# Packed relocations

`for_all_packed_relocs` reads the relocations of the `APS2` format: groups of relocations that
share some of their fields, with offsets and addends as differences. Only the relocations of 64-bit
libraries have addends. A packed table is processed as the plain one with the same relocations.
-/

namespace McpeLauncher.Linker
open Elf Sleb128Decoder

/-- `rel_t`; without addends they are `0`. -/
structure Rel (c : ElfClass) where
  offset : Addr c
  info : Addr c
  addend : Addr c
  deriving DecidableEq

variable {c : ElfClass} {σ : Type}

def RELOCATION_GROUPED_BY_INFO_FLAG : Addr c := BitVec.ofNat _ 1
def RELOCATION_GROUPED_BY_OFFSET_DELTA_FLAG : Addr c := BitVec.ofNat _ 2
def RELOCATION_GROUPED_BY_ADDEND_FLAG : Addr c := BitVec.ofNat _ 4
def RELOCATION_GROUP_HAS_ADDEND_FLAG : Addr c := BitVec.ofNat _ 8

/-- What happens to a relocation, which may end the loop. -/
abbrev Callback (c : ElfClass) (σ : Type) := Rel c → σ → Bool × σ

/-- `plain_relocate_impl`. -/
def plainRelocate (callback : Callback c σ) : List (Rel c) → σ → Bool × σ
  | [], s => (true, s)
  | reloc :: rels, s =>
    match callback reloc s with
    | (true, s) => plainRelocate callback rels s
    | (false, s) => (false, s)

namespace PackedRelocs

/-- The flags about addends. -/
def groupFlagsReloc (groupFlags : Addr c) : Addr c :=
  groupFlags &&& (RELOCATION_GROUP_HAS_ADDEND_FLAG ||| RELOCATION_GROUPED_BY_ADDEND_FLAG)

/-- Each relocation of the group has an addend. -/
def eachAddend (groupFlags : Addr c) : Bool :=
  c = .ELF64 && groupFlagsReloc groupFlags = RELOCATION_GROUP_HAS_ADDEND_FLAG

/-- The addend at the beginning of a group. An addend in a 32-bit library stops the process. -/
def groupAddend (groupFlags addend : Addr c) (decoder : List UInt8) :
    Option (Addr c × List UInt8) :=
  if c = .ELF64 then
    if groupFlagsReloc groupFlags = RELOCATION_GROUP_HAS_ADDEND_FLAG then some (addend, decoder)
    else if groupFlagsReloc groupFlags =
        RELOCATION_GROUP_HAS_ADDEND_FLAG ||| RELOCATION_GROUPED_BY_ADDEND_FLAG then
      (popFront decoder).map fun (delta, decoder) => (addend + delta, decoder)
    else some (0, decoder)
  else if groupFlags &&& RELOCATION_GROUP_HAS_ADDEND_FLAG ≠ 0 then none
  else some (addend, decoder)

/-- A field is in the bytes unless there is a value for it. -/
def popUnless (there : Bool) (value : Addr c) (decoder : List UInt8) :
    Option (Addr c × List UInt8) :=
  if there then some (value, decoder) else popFront decoder

/-- The loop over a group. -/
def forGroup (callback : Callback c σ) (groupFlags groupROffsetDelta : Addr c) :
    Nat → Rel c → List UInt8 → σ → Option (Bool × Rel c × List UInt8 × σ)
  | 0, reloc, decoder, s => some (true, reloc, decoder, s)
  | n + 1, reloc, decoder, s => do
    let (offset, decoder) ←
      popUnless (groupFlags &&& RELOCATION_GROUPED_BY_OFFSET_DELTA_FLAG != 0) groupROffsetDelta
        decoder
    let (info, decoder) ←
      popUnless (groupFlags &&& RELOCATION_GROUPED_BY_INFO_FLAG != 0) reloc.info decoder
    let (addend, decoder) ← popUnless (!eachAddend groupFlags) 0 decoder
    let reloc := ⟨reloc.offset + offset, info, reloc.addend + addend⟩
    match callback reloc s with
    | (true, s) => forGroup callback groupFlags groupROffsetDelta n reloc decoder s
    | (false, s) => some (false, reloc, decoder, s)

/-- The loop over the groups. Each of them takes bytes, so that their number is enough fuel. -/
def forGroups (callback : Callback c σ) (numRelocs : Addr c) :
    (fuel : Nat) → (idx : Addr c) → Rel c → List UInt8 → σ → Option (Bool × σ)
  | 0, _, _, _, _ => none
  | fuel + 1, idx, reloc, decoder, s =>
    if idx < numRelocs then do
      let (groupSize, decoder) ← popFront decoder
      let (groupFlags, decoder) ← popFront decoder
      let (groupROffsetDelta, decoder) ←
        popUnless (groupFlags &&& RELOCATION_GROUPED_BY_OFFSET_DELTA_FLAG == 0) 0 decoder
      let (info, decoder) ←
        popUnless (groupFlags &&& RELOCATION_GROUPED_BY_INFO_FLAG == 0) reloc.info decoder
      let (addend, decoder) ← groupAddend groupFlags reloc.addend decoder
      match ← forGroup callback groupFlags groupROffsetDelta groupSize.toNat
          ⟨reloc.offset, info, addend⟩ decoder s with
      | (true, reloc, decoder, s) =>
        forGroups callback numRelocs fuel (idx + groupSize) reloc decoder s
      | (false, _, _, s) => some (false, s)
    else some (true, s)

def forAllPackedRelocs (callback : Callback c σ) (decoder : List UInt8) (s : σ) :
    Option (Bool × σ) := do
  let (numRelocs, decoder) ← popFront decoder
  let (offset, decoder) ← popFront decoder
  forGroups callback numRelocs (decoder.length + 1) 0 ⟨offset, 0, 0⟩ decoder s

/-! ## The format -/

/-- How the relocations of a group have their addends. -/
inductive Addends (c : ElfClass)
  | none
  | shared (addend : Addr c)
  | each

def Addends.isShared : Addends c → Bool
  | .shared _ => true
  | _ => false

def Addends.isEach : Addends c → Bool
  | .each => true
  | _ => false

/-- The flags of a group. -/
def flagWord (byInfo byDelta byAddend hasAddend : Bool) : Addr c :=
  (if byInfo then RELOCATION_GROUPED_BY_INFO_FLAG else 0) |||
  (if byDelta then RELOCATION_GROUPED_BY_OFFSET_DELTA_FLAG else 0) |||
  (if byAddend then RELOCATION_GROUPED_BY_ADDEND_FLAG else 0) |||
  (if hasAddend then RELOCATION_GROUP_HAS_ADDEND_FLAG else 0)

/-- Relocations with what they share: the difference of the offsets, the info and the addend. -/
structure Group (c : ElfClass) where
  delta : Option (Addr c)
  info : Option (Addr c)
  addends : Addends c
  relocs : List (Rel c)

namespace Group

def flags (g : Group c) : Addr c :=
  flagWord g.info.isSome g.delta.isSome g.addends.isShared
    (g.addends.isShared || g.addends.isEach)

/-- A relocation has what its group shares. -/
def Shares (g : Group c) (prev r : Rel c) : Prop :=
  (∀ d ∈ g.delta, r.offset = prev.offset + d) ∧ (∀ i ∈ g.info, r.info = i) ∧
    match g.addends with
    | .none => r.addend = 0
    | .shared a => r.addend = a
    | .each => True

/-- The words of one relocation behind another one. -/
def relocWords (g : Group c) (prev r : Rel c) : List (Addr c) :=
  (if g.delta.isSome then [] else [r.offset - prev.offset]) ++
  (if g.info.isSome then [] else [r.info]) ++
  (if !g.addends.isEach then [] else [r.addend - prev.addend])

/-- The words at the beginning of a group. -/
def headWords (g : Group c) (prev : Rel c) : List (Addr c) :=
  [BitVec.ofNat _ g.relocs.length, g.flags] ++ g.delta.toList ++ g.info.toList ++
  match g.addends with
  | .shared a => [a - prev.addend]
  | _ => []

/-- The words of the relocations of a group behind `prev`. -/
def bodyWords (g : Group c) : (prev : Rel c) → List (Rel c) → List (Addr c)
  | _, [] => []
  | prev, r :: rs => g.relocWords prev r ++ bodyWords g r rs

def SharesAll (g : Group c) : (prev : Rel c) → List (Rel c) → Prop
  | _, [] => True
  | prev, r :: rs => g.Shares prev r ∧ SharesAll g r rs

/-- A group that can stand behind `prev` in a library of its class. -/
structure Fits (g : Group c) (prev : Rel c) : Prop where
  ne_nil : g.relocs ≠ []
  shares : g.SharesAll prev g.relocs
  addends : c = .ELF32 → g.addends = .none

/-- What the loop has in `reloc` before a relocation behind `prev`. -/
structure Enters (g : Group c) (prev reloc : Rel c) : Prop where
  offset : reloc.offset = prev.offset
  info : ∀ i ∈ g.info, reloc.info = i
  addend : match g.addends with
    | .none => reloc.addend = 0
    | .shared a => reloc.addend = a
    | .each => reloc.addend = prev.addend

end Group

/-- The last relocation of a group, or the one before it. -/
def Group.last (g : Group c) (prev : Rel c) : Rel c := g.relocs.getLastD prev

def groupsWords : (prev : Rel c) → List (Group c) → List (Addr c)
  | _, [] => []
  | prev, g :: gs => g.headWords prev ++ g.bodyWords prev g.relocs ++ groupsWords (g.last prev) gs

def GroupsFit : (prev : Rel c) → List (Group c) → Prop
  | _, [] => True
  | prev, g :: gs => g.Fits prev ∧ GroupsFit (g.last prev) gs

/-- All relocations of the groups, in order. -/
def relocs (gs : List (Group c)) : List (Rel c) := gs.flatMap Group.relocs

/-- The first words of a table are the number of relocations and an offset to begin with. -/
def packed (start : Addr c) (gs : List (Group c)) : List UInt8 :=
  ([BitVec.ofNat _ (relocs gs).length, start] ++ groupsWords ⟨start, 0, 0⟩ gs).flatMap sleb

/-! ## Reading the format -/

section
variable (byInfo byDelta byAddend hasAddend : Bool)

theorem flagWord_info : ((flagWord byInfo byDelta byAddend hasAddend : Addr c) &&&
    RELOCATION_GROUPED_BY_INFO_FLAG == 0) = !byInfo := by
  revert byInfo byDelta byAddend hasAddend
  cases c <;> decide

theorem flagWord_delta : ((flagWord byInfo byDelta byAddend hasAddend : Addr c) &&&
    RELOCATION_GROUPED_BY_OFFSET_DELTA_FLAG == 0) = !byDelta := by
  revert byInfo byDelta byAddend hasAddend
  cases c <;> decide

theorem flagWord_hasAddend : (flagWord byInfo byDelta byAddend hasAddend : Addr c) &&&
    RELOCATION_GROUP_HAS_ADDEND_FLAG = 0 ↔ hasAddend = false := by
  revert byInfo byDelta byAddend hasAddend
  cases c <;> decide

theorem groupFlagsReloc_each :
    groupFlagsReloc (flagWord byInfo byDelta byAddend hasAddend : Addr c) =
      RELOCATION_GROUP_HAS_ADDEND_FLAG ↔ byAddend = false ∧ hasAddend = true := by
  revert byInfo byDelta byAddend hasAddend
  cases c <;> decide

theorem groupFlagsReloc_shared :
    groupFlagsReloc (flagWord byInfo byDelta byAddend hasAddend : Addr c) =
      RELOCATION_GROUP_HAS_ADDEND_FLAG ||| RELOCATION_GROUPED_BY_ADDEND_FLAG ↔
      byAddend = true ∧ hasAddend = true := by
  revert byInfo byDelta byAddend hasAddend
  cases c <;> decide

end

theorem popFront_words (x : Addr c) (ws : List (Addr c)) (rest : List UInt8) :
    popFront ((x :: ws).flatMap sleb ++ rest) = some (x, ws.flatMap sleb ++ rest) := by
  rw [List.flatMap_cons, List.append_assoc, popFront_sleb]

/-- A field is read unless it is shared. -/
theorem popUnless_words (there : Bool) (x y : Addr c) (ws : List (Addr c)) (rest : List UInt8) :
    popUnless there y (((if there then [] else [x]) ++ ws).flatMap sleb ++ rest) =
      some (if there then y else x, ws.flatMap sleb ++ rest) := by
  cases there
  · exact popFront_words x ws rest
  · rfl

namespace Group
variable {g : Group c} {prev reloc r : Rel c}

theorem eachAddend_flags (hclass : c = .ELF32 → g.addends = .none) :
    eachAddend g.flags = g.addends.isEach := by
  rw [eachAddend, flags, Bool.eq_iff_iff, Bool.and_eq_true, decide_eq_true_iff, decide_eq_true_iff,
    groupFlagsReloc_each]
  cases c with
  | ELF32 => simp [hclass rfl, Addends.isEach]
  | ELF64 => cases g.addends <;> simp [Addends.isShared, Addends.isEach]

/-- What is read of a relocation makes it from what was there before. -/
theorem Enters.read (henter : g.Enters prev reloc) (hr : g.Shares prev r) :
    (⟨reloc.offset + (if g.delta.isSome then g.delta.getD 0 else r.offset - prev.offset),
      if g.info.isSome then reloc.info else r.info,
      reloc.addend + (if !g.addends.isEach then 0 else r.addend - prev.addend)⟩ : Rel c) = r := by
  obtain ⟨hdelta, hinfo, haddend⟩ := hr
  obtain ⟨hoffset, hinfo', haddend'⟩ := henter
  have hdiff (x y : Addr c) : x + (y - x) = y := by rw [BitVec.add_comm, BitVec.sub_add_cancel]
  congr 1
  · cases hd : g.delta with
    | none => rw [hoffset]; exact hdiff _ _
    | some d => rw [hoffset]; exact (hdelta d hd).symm
  · cases hi : g.info with
    | none => rfl
    | some i => exact (hinfo' i hi).trans (hinfo i hi).symm
  · cases ha : g.addends with
    | none => rw [ha] at haddend haddend'; exact haddend'.symm ▸ haddend.symm ▸ BitVec.add_zero _
    | shared a => rw [ha] at haddend haddend'; exact haddend'.symm ▸ haddend.symm ▸ BitVec.add_zero _
    | each => rw [ha] at haddend'; rw [haddend']; exact hdiff _ _

/-- One relocation of a group. -/
theorem forGroup_succ (hclass : c = .ELF32 → g.addends = .none) (henter : g.Enters prev reloc)
    (hr : g.Shares prev r) (callback : Callback c σ) (n : Nat) (ws : List (Addr c))
    (rest : List UInt8) (s : σ) :
    forGroup callback g.flags (g.delta.getD 0) (n + 1) reloc
        ((g.relocWords prev r ++ ws).flatMap sleb ++ rest) s =
      match callback r s with
      | (true, s) =>
        forGroup callback g.flags (g.delta.getD 0) n r (ws.flatMap sleb ++ rest) s
      | (false, s) => some (false, r, ws.flatMap sleb ++ rest, s) := by
  have hdelta : (g.flags &&& RELOCATION_GROUPED_BY_OFFSET_DELTA_FLAG != 0) = g.delta.isSome := by
    rw [bne, flags, flagWord_delta, Bool.not_not]
  have hinfo : (g.flags &&& RELOCATION_GROUPED_BY_INFO_FLAG != 0) = g.info.isSome := by
    rw [bne, flags, flagWord_info, Bool.not_not]
  rw [forGroup, hdelta, hinfo, eachAddend_flags hclass, relocWords]
  simp only [List.append_assoc, popUnless_words, Option.bind_eq_bind, Option.bind_some,
    henter.read hr]

/-- Behind a relocation of the group the next one can be read. -/
theorem Shares.enters (hr : g.Shares prev r) : g.Enters r r := by
  obtain ⟨-, hinfo, haddend⟩ := hr
  refine ⟨rfl, hinfo, ?_⟩
  cases h : g.addends <;> simp_all

/-- **The loop over a group** does what the plain loop does, and goes on behind the group if that
does. -/
theorem forGroup_eq (hclass : c = .ELF32 → g.addends = .none) {rs : List (Rel c)}
    (henter : g.Enters prev reloc) (hrs : g.SharesAll prev rs) (callback : Callback c σ)
    (rest : List UInt8) (s : σ) :
    ∃ r decoder, forGroup callback g.flags (g.delta.getD 0) rs.length reloc
        ((g.bodyWords prev rs).flatMap sleb ++ rest) s =
          some ((plainRelocate callback rs s).1, r, decoder, (plainRelocate callback rs s).2) ∧
      ((plainRelocate callback rs s).1 = true → r = rs.getLastD reloc ∧ decoder = rest) := by
  induction rs generalizing prev reloc s with
  | nil => exact ⟨reloc, rest, rfl, fun _ => ⟨rfl, rfl⟩⟩
  | cons r rs ih =>
    obtain ⟨hr, hrs⟩ := hrs
    rw [List.length_cons, bodyWords, forGroup_succ hclass henter hr, plainRelocate]
    rcases callback r s with ⟨_ | _, s'⟩
    · exact ⟨r, _, rfl, fun h => Bool.noConfusion h⟩
    · obtain ⟨r', decoder, hrun, hlast⟩ := ih hr.enters hrs s'
      refine ⟨r', decoder, hrun, fun h => ?_⟩
      obtain ⟨hr', hdecoder⟩ := hlast h
      exact ⟨hr'.trans (by cases rs <;> rfl), hdecoder⟩

/-- A shared field is read at the beginning of a group. -/
theorem popUnless_toList (shared : Option (Addr c)) (y : Addr c) (ws : List (Addr c))
    (rest : List UInt8) :
    popUnless (!shared.isSome) y ((shared.toList ++ ws).flatMap sleb ++ rest) =
      some (shared.getD y, ws.flatMap sleb ++ rest) := by
  cases shared with
  | none => rfl
  | some x => exact popFront_words x ws rest

/-- The addend that is read at the beginning of a group. -/
def headAddend (g : Group c) (prev : Rel c) : Addr c :=
  match g.addends with
  | .none => 0
  | .shared a => a
  | .each => prev.addend

theorem groupAddend_flags (hclass : c = .ELF32 → g.addends = .none)
    (hprev : c = .ELF32 → prev.addend = 0) (ws : List (Addr c)) (rest : List UInt8) :
    groupAddend g.flags prev.addend (((match g.addends with
      | .shared a => [a - prev.addend]
      | _ => []) ++ ws).flatMap sleb ++ rest) =
      some (g.headAddend prev, ws.flatMap sleb ++ rest) := by
  rw [groupAddend, flags, headAddend]
  simp only [groupFlagsReloc_each, groupFlagsReloc_shared, ne_eq, flagWord_hasAddend]
  cases c with
  | ELF32 => simp [hclass rfl, hprev rfl, Addends.isShared, Addends.isEach]
  | ELF64 =>
    cases g.addends with
    | none => simp [Addends.isShared, Addends.isEach]
    | shared a =>
      simp only [Addends.isShared, Addends.isEach, List.cons_append, popFront_words]
      simp [BitVec.add_comm prev.addend, BitVec.sub_add_cancel]
    | each => simp [Addends.isShared, Addends.isEach]

/-- In a library without addends there are none. -/
theorem SharesAll.addend_last (hclass : c = .ELF32 → g.addends = .none) {rs : List (Rel c)}
    (hrs : g.SharesAll prev rs) (hprev : c = .ELF32 → prev.addend = 0) (hc : c = .ELF32) :
    (rs.getLastD prev).addend = 0 := by
  induction rs generalizing prev with
  | nil => exact hprev hc
  | cons r rs ih =>
    obtain ⟨⟨-, -, haddend⟩, hrs⟩ := hrs
    rw [hclass hc] at haddend
    rw [List.getLastD_cons]
    exact ih hrs fun _ => haddend

theorem enters_head (g : Group c) (prev : Rel c) :
    g.Enters prev ⟨prev.offset, g.info.getD prev.info, g.headAddend prev⟩ := by
  refine ⟨rfl, fun i hi => by rw [hi]; rfl, ?_⟩
  rw [headAddend]
  cases g.addends <;> rfl

end Group

theorem plainRelocate_append (callback : Callback c σ) (rs rs' : List (Rel c)) (s : σ) :
    plainRelocate callback (rs ++ rs') s =
      match plainRelocate callback rs s with
      | (true, s) => plainRelocate callback rs' s
      | (false, s) => (false, s) := by
  induction rs generalizing s with
  | nil => rfl
  | cons r rs ih =>
    rw [List.cons_append, plainRelocate, plainRelocate]
    rcases callback r s with ⟨_ | _, s'⟩
    · rfl
    · exact ih s'

/-- **The loop over the groups** does what the plain loop does with all their relocations. -/
theorem forGroups_eq (callback : Callback c σ) {gs : List (Group c)} {prev : Rel c}
    (hgs : GroupsFit prev gs) (hprev : c = .ELF32 → prev.addend = 0) {total fuel : Nat}
    {idx : Addr c} (htotal : total < 2 ^ (8 * c.word))
    (hidx : idx.toNat + (relocs gs).length = total) (hfuel : gs.length < fuel)
    (rest : List UInt8) (s : σ) :
    forGroups callback (BitVec.ofNat _ total) fuel idx prev
        ((groupsWords prev gs).flatMap sleb ++ rest) s =
      some (plainRelocate callback (relocs gs) s) := by
  induction gs generalizing prev idx fuel s with
  | nil =>
    obtain ⟨fuel, rfl⟩ := Nat.exists_eq_succ_of_ne_zero (Nat.ne_zero_of_lt hfuel)
    rw [forGroups, if_neg]
    · rfl
    · rw [BitVec.lt_def, BitVec.toNat_ofNat, Nat.mod_eq_of_lt htotal]
      exact Nat.not_lt.mpr hidx.ge
  | cons g gs ih =>
    obtain ⟨⟨hne, hshares, hclass⟩, hgs⟩ := hgs
    obtain ⟨fuel, rfl⟩ := Nat.exists_eq_succ_of_ne_zero (Nat.ne_zero_of_lt hfuel)
    have hlength : (relocs (g :: gs)).length = g.relocs.length + (relocs gs).length := by
      rw [relocs, List.flatMap_cons, List.length_append, relocs]
    have hpos := List.length_pos_iff.mpr hne
    have hsize : (BitVec.ofNat (8 * c.word) g.relocs.length).toNat = g.relocs.length :=
      Nat.mod_eq_of_lt (by omega)
    have hdelta : (g.flags &&& RELOCATION_GROUPED_BY_OFFSET_DELTA_FLAG == 0) = !g.delta.isSome := by
      rw [Group.flags, flagWord_delta]
    have hinfo : (g.flags &&& RELOCATION_GROUPED_BY_INFO_FLAG == 0) = !g.info.isSome := by
      rw [Group.flags, flagWord_info]
    have hlt : idx < BitVec.ofNat _ total := by
      rw [BitVec.lt_def, BitVec.toNat_ofNat, Nat.mod_eq_of_lt htotal]
      omega
    rw [forGroups, if_pos hlt, groupsWords, Group.headWords]
    simp only [List.append_assoc, List.cons_append, List.nil_append, popFront_words,
      Option.bind_eq_bind, Option.bind_some, hdelta, hinfo, Group.popUnless_toList,
      Group.groupAddend_flags hclass hprev, hsize]
    rw [List.flatMap_append, List.append_assoc]
    obtain ⟨r, decoder, hrun, hlast⟩ := Group.forGroup_eq hclass (g.enters_head prev) hshares
      callback ((groupsWords (g.last prev) gs).flatMap sleb ++ rest) s
    rw [hrun, relocs, List.flatMap_cons, plainRelocate_append, ← relocs, Option.bind_some]
    rcases hplain : plainRelocate callback g.relocs s with ⟨_ | _, s'⟩
    · rfl
    · rw [hplain] at hlast
      obtain ⟨rfl, rfl⟩ := hlast rfl
      have hr : g.relocs.getLastD ⟨prev.offset, g.info.getD prev.info, g.headAddend prev⟩ =
          g.last prev := by
        obtain ⟨r, rs, hrs⟩ := List.exists_cons_of_ne_nil hne
        rw [Group.last, hrs]
        rfl
      rw [hr]
      refine ih hgs (Group.SharesAll.addend_last hclass hshares hprev) ?_ (by simpa using hfuel) s'
      rw [BitVec.toNat_add, hsize, Nat.mod_eq_of_lt (by omega)]
      omega

theorem length_le_groupsWords (gs : List (Group c)) (prev : Rel c) :
    gs.length ≤ (groupsWords prev gs).length := by
  induction gs generalizing prev with
  | nil => exact Nat.le_refl 0
  | cons g gs ih =>
    have hrest := ih (g.last prev)
    rw [groupsWords, Group.headWords]
    simp only [List.length_append, List.length_cons]
    omega

theorem length_le_flatMap_sleb (ws : List (Addr c)) : ws.length ≤ (ws.flatMap sleb).length := by
  induction ws with
  | nil => exact Nat.le_refl 0
  | cons w ws ih =>
    have hpos := List.length_pos_iff.mpr (Leb128.encode_ne_nil w.toInt)
    rw [List.flatMap_cons, List.length_append, List.length_cons, sleb]
    omega

/-- A packed table is processed as the plain table of the same relocations. -/
theorem forAllPackedRelocs_packed (callback : Callback c σ) {start : Addr c} {gs : List (Group c)}
    (hgs : GroupsFit ⟨start, 0, 0⟩ gs) (htotal : (relocs gs).length < 2 ^ (8 * c.word))
    (rest : List UInt8) (s : σ) :
    forAllPackedRelocs callback (packed start gs ++ rest) s =
      some (plainRelocate callback (relocs gs) s) := by
  rw [forAllPackedRelocs, packed]
  simp only [List.cons_append, List.nil_append, popFront_words, Option.bind_eq_bind,
    Option.bind_some]
  refine forGroups_eq callback hgs (fun _ => rfl) htotal (Nat.zero_add _) ?_ rest s
  have hwords := length_le_groupsWords gs ⟨start, 0, 0⟩
  have hbytes := length_le_flatMap_sleb (groupsWords ⟨start, 0, 0⟩ gs)
  rw [List.length_append]
  omega

/-- Two relocations eight bytes apart that share their info and have addends. -/
def sharedGroup : Group .ELF64 := ⟨some 8, some 5, .each, [⟨0x1008, 5, 3⟩, ⟨0x1010, 5, 9⟩]⟩

theorem sharedGroup_fits : GroupsFit ⟨0x1000, 0, 0⟩ [sharedGroup] := by
  refine ⟨⟨List.cons_ne_nil _ _, ?_, fun h => nomatch h⟩, trivial⟩
  simp only [sharedGroup, Group.SharesAll, Group.Shares, Option.mem_some_iff, forall_eq', and_true]
  decide

end PackedRelocs
end McpeLauncher.Linker
