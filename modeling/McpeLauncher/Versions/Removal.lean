import Mathlib.Data.List.TakeWhile
import McpeLauncher.Versions.VersionIndex

/-!
# Removing versions

When the two functions `removeVersion` look only at codes that are in the map, and when the removal
of a whole version leaves nothing of it there, after any calls.
-/

namespace McpeLauncher.Versions

namespace VersionManager
variable {H : QHashLayout} {abis : List String} {s t : VersionManager} {ver : Nat}

/-- The code is in the map and another version has it. -/
def otherHas (s : VersionManager) (ver : Nat) (code : Int) : Bool :=
  (s.versions[code]?).any (· ≠ ver)

/-- The codes of a version up to the first one that another version has. -/
def ownCodes (s : VersionManager) (ver : Nat) : List Int :=
  (s.info ver).values.takeWhile fun code => !s.otherHas ver code

/-- The version is in the map under all of its codes. -/
def Indexed (s : VersionManager) (ver : Nat) : Prop :=
  ∀ code ∈ (s.info ver).values, s.versions[code]? = some ver

/-- What the removal of a version needs: the codes up to the first one of another version are in the
map and different, and a version that has all of its codes there has no other ones. -/
structure RemovalOk (s : VersionManager) (ver : Nat) : Prop where
  found : ∀ code ∈ s.ownCodes ver, s.versions[code]? ≠ none
  nodup : (s.ownCodes ver).Nodup
  covered : s.Indexed ver → ∀ code : Int, s.versions[code]? = some ver → code ∈ (s.info ver).values

/-- What the removal of ABIs needs: their codes are in the map, and those of the version itself are
different. -/
structure RemovalAbisOk (s : VersionManager) (ver : Nat) (abis : List String) : Prop where
  found : ∀ code ∈ codesOf (s.info ver) abis, s.versions[code]? ≠ none
  nodup : ((codesOf (s.info ver) abis).filter fun code => !s.otherHas ver code).Nodup

def RemovalCallOk (s : VersionManager) : Call → Prop
  | .removeVersion (some ver) => s.RemovalOk ver
  | .removeVersionAbis (some ver) l => s.RemovalAbisOk ver l
  | _ => True

/-- A call that looks at entries of the map only if they were found, and that leaves no entry of a
version that was there under all of its codes and is removed. -/
def Removes (H : QHashLayout) (abis : List String) (s : VersionManager) (call : Call) : Prop :=
  ∃ t, s.step H abis call = some t ∧ ∀ ver, call = .removeVersion (some ver) → s.Indexed ver →
    ∀ code : Int, t.versions[code]? ≠ some ver

/-! ## The loops -/

theorem otherHas_eq_true {code : Int} :
    s.otherHas ver code = true ↔ ∃ w, s.versions[code]? = some w ∧ w ≠ ver := by
  simp [otherHas, Option.any_eq_true]

theorem otherHas_of_own {code : Int} (h : s.versions[code]? = some ver) :
    s.otherHas ver code = false := by
  rw [otherHas, h]
  simp

/-- A code that the version loses was not another one's. -/
theorem otherHas_erase {code : Int} (h : s.versions[code]? = some ver) (c : Int) :
    (s.erase code).otherHas ver c = s.otherHas ver c := by
  rw [otherHas, getElem?_erase]
  split
  · next hc =>
    subst hc
    exact (otherHas_of_own h).symm
  · rfl

theorem found_erase_iff {code : Int} {l : List Int} :
    (∀ c ∈ l, (s.erase code).versions[c]? ≠ none) ↔
      code ∉ l ∧ ∀ c ∈ l, s.versions[c]? ≠ none := by
  simp only [getElem?_erase]
  constructor
  · intro h
    refine ⟨fun hmem => h code hmem (if_pos rfl), fun c hc hnone => h c hc ?_⟩
    rw [hnone, ite_self]
  · rintro ⟨hnot, h⟩ c hc
    have hne : c ≠ code := fun heq => hnot (heq ▸ hc)
    rw [if_neg hne]
    exact h c hc

/-- The conditions of a loop, with those of its first code. -/
theorem first_code_iff {first new rest nodup : Prop} (h : first) :
    (new ∧ rest) ∧ nodup ↔ (first ∧ rest) ∧ new ∧ nodup := by
  rw [and_iff_right h, and_comm (a := new), and_assoc]

section Code

variable {code : Int} {codes : List Int}

theorem removeCodes_missing (h : s.versions[code]? = none) :
    removeCodes ver (code :: codes) s = none := by
  simp [removeCodes, h]

theorem removeCodes_own (h : s.versions[code]? = some ver) : removeCodes ver (code :: codes) s =
    removeCodes ver codes ((s.removeDirectory (s.info ver).directory).erase code) := by
  simp [removeCodes, h]

theorem removeCodes_otherHas {w : Nat} (h : s.versions[code]? = some w) (hw : w ≠ ver) :
    removeCodes ver (code :: codes) s = some (false, s) := by
  simp [removeCodes, h, hw]

/-- The other versions' codes are the same when a directory and a code of the version are gone. -/
theorem otherHas_removed (h : s.versions[code]? = some ver) (d : String) (c : Int) :
    ((s.removeDirectory d).erase code).otherHas ver c = s.otherHas ver c :=
  otherHas_erase h c

theorem found_removed_iff (d : String) {l : List Int} :
    (∀ c ∈ l, ((s.removeDirectory d).erase code).versions[c]? ≠ none) ↔
      code ∉ l ∧ ∀ c ∈ l, s.versions[c]? ≠ none :=
  found_erase_iff

end Code

/-- The loop over the codes gets to its end or to a code of another version. -/
theorem removeCodes_ne_none_iff (ver : Nat) (codes : List Int) (s : VersionManager) :
    removeCodes ver codes s ≠ none ↔
      (∀ code ∈ codes.takeWhile fun code => !s.otherHas ver code, s.versions[code]? ≠ none) ∧
        (codes.takeWhile fun code => !s.otherHas ver code).Nodup := by
  induction codes generalizing s with
  | nil => simp [removeCodes]
  | cons code codes ih =>
    cases hcode : s.versions[code]? with
    | none =>
      have hother : s.otherHas ver code = false := by rw [otherHas, hcode]; rfl
      rw [removeCodes_missing hcode, List.takeWhile_cons_of_pos (by simp [hother])]
      exact iff_of_false (fun h => h rfl) fun h => h.1 code (.head _) hcode
    | some val =>
      by_cases hval : val = ver
      · subst hval
        have hother := otherHas_of_own hcode
        have hne : s.versions[code]? ≠ none := by simp [hcode]
        have hloop := ih ((s.removeDirectory (s.info val).directory).erase code)
        simp only [otherHas_removed hcode, found_removed_iff] at hloop
        rw [removeCodes_own hcode, List.takeWhile_cons_of_pos (by simp [hother]),
          List.nodup_cons, List.forall_mem_cons]
        exact hloop.trans (first_code_iff hne)
      · have hother : s.otherHas ver code = true := otherHas_eq_true.mpr ⟨val, hcode, hval⟩
        rw [removeCodes_otherHas hcode hval, List.takeWhile_cons_of_neg (by simp [hother])]
        exact iff_of_true (by simp) ⟨List.forall_mem_nil _, List.nodup_nil⟩

section Abi

variable {abi : String} {l : List String} {code : Int}
  (habi : (s.info ver).codes.lookup abi = some code)

include habi

theorem removeAbis_missing (h : s.versions[code]? = none) : removeAbis ver (abi :: l) s = none := by
  simp [removeAbis, habi, h]

theorem removeAbis_own (h : s.versions[code]? = some ver) :
    removeAbis ver (abi :: l) s = removeAbis ver l (s.erase code) := by
  simp [removeAbis, habi, h]

theorem removeAbis_otherHas {w : Nat} (h : s.versions[code]? = some w) (hw : w ≠ ver) :
    removeAbis ver (abi :: l) s = removeAbis ver l s := by
  simp [removeAbis, habi, h, hw]

end Abi

/-- The loop over the ABIs gets to its end. -/
theorem removeAbis_ne_none_iff (ver : Nat) (l : List String) (s : VersionManager) :
    removeAbis ver l s ≠ none ↔
      (∀ code ∈ codesOf (s.info ver) l, s.versions[code]? ≠ none) ∧
        ((codesOf (s.info ver) l).filter fun code => !s.otherHas ver code).Nodup := by
  induction l generalizing s with
  | nil => simp [removeAbis, codesOf]
  | cons abi l ih =>
    cases habi : (s.info ver).codes.lookup abi with
    | none =>
      have hskip : codesOf (s.info ver) (abi :: l) = codesOf (s.info ver) l :=
        List.filterMap_cons_none habi
      rw [removeAbis, habi, hskip]
      exact ih s
    | some code =>
      have hcons : codesOf (s.info ver) (abi :: l) = code :: codesOf (s.info ver) l :=
        List.filterMap_cons_some habi
      rw [hcons, List.forall_mem_cons]
      cases hcode : s.versions[code]? with
      | none =>
        rw [removeAbis_missing habi hcode]
        exact iff_of_false (fun h => h rfl) fun h => h.1.1 rfl
      | some val =>
        have hne : (some val : Option Nat) ≠ none := by simp
        by_cases hval : val = ver
        · subst hval
          have hother := otherHas_of_own hcode
          have hloop := ih (s.erase code)
          simp only [otherHas_erase hcode, found_erase_iff] at hloop
          have hmem : code ∈ codesOf (s.info val) l ↔
              code ∈ (codesOf (s.info val) l).filter fun code => !s.otherHas val code := by
            simp [List.mem_filter, hother]
          rw [removeAbis_own habi hcode, List.filter_cons_of_pos (by simp [hother]),
            List.nodup_cons, ← hmem]
          exact hloop.trans (first_code_iff hne)
        · have hother : s.otherHas ver code = true := otherHas_eq_true.mpr ⟨val, hcode, hval⟩
          rw [removeAbis_otherHas habi hcode hval, List.filter_cons_of_neg (by simp [hother]),
            and_iff_right hne]
          exact ih s

/-! ## The calls -/

/-- Codes that the version has all are all its own. -/
theorem Indexed.ownCodes (h : s.Indexed ver) : s.ownCodes ver = (s.info ver).values := by
  refine List.takeWhile_eq_self_iff.mpr fun code hcode => ?_
  rw [otherHas_of_own (h code hcode)]
  rfl

theorem removeVersion_ne_none_iff (ver : Nat) :
    s.removeVersion (some ver) ≠ none ↔ removeCodes ver (s.info ver).values s ≠ none := by
  rw [removeVersion]
  cases removeCodes ver (s.info ver).values s with
  | none => exact iff_of_false (fun h => h rfl) fun h => h rfl
  | some r => exact iff_of_true (by simp) (by simp)

/-- A version with different codes that are all in the map loses these. -/
theorem removeVersion_of_indexed (h : s.Indexed ver) (hnodup : (s.info ver).values.Nodup)
    (ht : s.removeVersion (some ver) = some t) (code : Int) :
    t.versions[code]? = if code ∈ (s.info ver).values then none else s.versions[code]? := by
  obtain ⟨t', ht', herased⟩ := removeCodes_spec h hnodup
  have hsave : s.removeVersion (some ver) = some t'.saveVersions := by
    simp [removeVersion, ht']
  cases ht.symm.trans hsave
  exact herased.2.2 code

theorem removes_removeVersion (ver : Nat) :
    s.Removes H abis (.removeVersion (some ver)) ↔ s.RemovalOk ver := by
  have hloop := (removeVersion_ne_none_iff ver).trans
    (removeCodes_ne_none_iff ver (s.info ver).values s)
  constructor
  · rintro ⟨t, ht, hclean⟩
    have hremove : s.removeVersion (some ver) = some t := ht
    obtain ⟨hfound, hnodup⟩ := hloop.mp (by rw [hremove]; simp)
    refine ⟨hfound, hnodup, fun hindexed code hcode => ?_⟩
    by_contra hnot
    have hleft := removeVersion_of_indexed hindexed (hindexed.ownCodes ▸ hnodup) hremove code
    rw [if_neg hnot] at hleft
    exact hclean ver rfl hindexed code (hleft.trans hcode)
  · rintro ⟨hfound, hnodup, hcovered⟩
    obtain ⟨t, ht⟩ := Option.ne_none_iff_exists'.mp (hloop.mpr ⟨hfound, hnodup⟩)
    refine ⟨t, ht, fun ver' hver hindexed code hcode => ?_⟩
    cases hver
    rw [removeVersion_of_indexed hindexed (hindexed.ownCodes ▸ hnodup) ht code] at hcode
    split at hcode
    · cases hcode
    · next hnot => exact hnot (hcovered hindexed code hcode)

theorem removes_removeVersionAbis (ver : Nat) (l : List String) :
    s.Removes H abis (.removeVersionAbis (some ver) l) ↔ s.RemovalAbisOk ver l := by
  have hloop := removeAbis_ne_none_iff ver l s
  constructor
  · rintro ⟨t, ht, -⟩
    obtain ⟨u, hu, -⟩ := Option.bind_eq_some_iff.mp ht
    obtain ⟨hfound, hnodup⟩ := hloop.mp (by rw [hu]; simp)
    exact ⟨hfound, hnodup⟩
  · rintro ⟨hfound, hnodup⟩
    obtain ⟨u, hu⟩ := Option.ne_none_iff_exists'.mp (hloop.mpr ⟨hfound, hnodup⟩)
    exact ⟨u.saveVersions, by simp [step, removeVersionAbis, hu], fun _ h => nomatch h⟩

/-- Exactly what each call needs. -/
theorem removes_iff (call : Call) : s.Removes H abis call ↔ s.RemovalCallOk call := by
  cases call with
  | addVersion d n code => exact iff_of_true ⟨_, rfl, fun _ h => nomatch h⟩ trivial
  | files disk => exact iff_of_true ⟨_, rfl, fun _ h => nomatch h⟩ trivial
  | restart => exact iff_of_true ⟨_, rfl, fun _ h => nomatch h⟩ trivial
  | removeVersion version =>
    cases version with
    | none => exact iff_of_true ⟨s, rfl, fun _ h => nomatch h⟩ trivial
    | some ver => exact removes_removeVersion ver
  | removeVersionAbis version l =>
    cases version with
    | none => exact iff_of_true ⟨s, rfl, fun _ h => nomatch h⟩ trivial
    | some ver => exact removes_removeVersionAbis ver l

/-- After any calls each call removes what it should exactly if all calls before it and it meet the
conditions. -/
theorem removals_iff (H : QHashLayout) (abis : List String) (disk : String → String → Bool)
    (calls : List Call) :
    (∀ before call after s, calls = before ++ call :: after →
      Runs.run (step H abis) (initial disk) before = some s → s.Removes H abis call) ↔
      Runs.Meets (step H abis) RemovalCallOk (initial disk) calls := by
  rw [Runs.meets_iff_forall]
  simp only [removes_iff]

/-- Two ABIs of a version get the same code, which is then looked up twice. -/
def sharedCode : List Call :=
  [.addVersion "1.20.0" "1.20.0" 972000001, .removeVersion (some 0)]

/-- A code that no ABI gets stays in the map. -/
def codeWithoutAbi : List Call :=
  [.addVersion "1.20.0" "1.20.0" 972000001, .addVersion "1.20.0" "1.20.0" 972000002,
    .removeVersion (some 0)]

theorem not_removals :
    (¬∀ before call after s, sharedCode = before ++ call :: after →
      Runs.run (step QHashLayout.newestFirst x86Abis)
        (initial fun d abi => d = "1.20.0" && abi ∈ ["x86_64", "arm64-v8a"]) before = some s →
      s.Removes QHashLayout.newestFirst x86Abis call) ∧
    ¬∀ before call after s, codeWithoutAbi = before ++ call :: after →
      Runs.run (step QHashLayout.newestFirst x86Abis)
        (initial fun d abi => d = "1.20.0" && abi ∈ ["x86_64"]) before = some s →
      s.Removes QHashLayout.newestFirst x86Abis call := by
  constructor
  · intro h
    obtain ⟨s, hs⟩ : ∃ s, Runs.run (step QHashLayout.newestFirst x86Abis)
        (initial fun d abi => d = "1.20.0" && abi ∈ ["x86_64", "arm64-v8a"]) (sharedCode.take 1) =
        some s := ⟨_, rfl⟩
    have hnone : ((Runs.run (step QHashLayout.newestFirst x86Abis)
        (initial fun d abi => d = "1.20.0" && abi ∈ ["x86_64", "arm64-v8a"])
          (sharedCode.take 1)).bind fun s => s.removeVersion (some 0)).isNone = true := by
      decide +kernel
    obtain ⟨t, ht, -⟩ := h (sharedCode.take 1) (.removeVersion (some 0)) [] s rfl hs
    have hsome : s.removeVersion (some 0) = some t := ht
    rw [hs, Option.bind_some, hsome] at hnone
    cases hnone
  · intro h
    have hrun : ((Runs.run (step QHashLayout.newestFirst x86Abis)
        (initial fun d abi => d = "1.20.0" && abi ∈ ["x86_64"]) (codeWithoutAbi.take 2)).map
          fun s => ((s.info 0).values, s.versions.toList,
            (s.removeVersion (some 0)).map fun t => t.versions.toList)) =
        some ([972000001], [(972000001, 0), (972000002, 0)], some [(972000002, 0)]) := by
      decide +kernel
    obtain ⟨s, hs, hfacts⟩ := Option.map_eq_some_iff.mp hrun
    simp only [Prod.mk.injEq] at hfacts
    obtain ⟨hvalues, hversions, hremove⟩ := hfacts
    have hindexed : s.Indexed 0 := by
      intro code hcode
      rw [hvalues, List.mem_singleton] at hcode
      rw [← Std.TreeMap.mem_toList_iff_getElem?_eq_some, hversions, hcode]
      exact .head _
    obtain ⟨t, ht, hclean⟩ := h (codeWithoutAbi.take 2) (.removeVersion (some 0)) [] s rfl hs
    obtain ⟨t', ht', hleft⟩ := Option.map_eq_some_iff.mp hremove
    cases ht.symm.trans ht'
    refine hclean 0 rfl hindexed 972000002 ?_
    rw [← Std.TreeMap.mem_toList_iff_getElem?_eq_some, hleft]
    exact .head _

end VersionManager

end McpeLauncher.Versions
