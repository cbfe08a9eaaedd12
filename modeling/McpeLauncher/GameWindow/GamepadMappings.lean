import McpeLauncher.Lib.Split

/-!
# Gamepad mappings

`LinuxGamepadJoystickManager` takes mappings from a text, a line each. The manager that they are
added to is not part of the repository; it throws for a line that is no mapping.
-/

namespace McpeLauncher.GameWindow

namespace GamepadMappings

abbrev Bytes := List UInt8

def newline : UInt8 := 10

/-- `content.find('\n', i)`, none for `npos`. -/
def find (content : Bytes) (i : Nat) : Option Nat :=
  (Split.first newline (content.drop i)).map fun p => i + p.1.length

/-- `content.substr(i, n)` -/
def substr (content : Bytes) (i : Nat) : Option Nat → Bytes
  | none => content.drop i
  | some n => (content.drop i).take n

theorem find_range {content : Bytes} {i j : Nat} (h : find content i = some j) :
    i ≤ j ∧ j < content.length := by
  obtain ⟨p, hp, rfl⟩ := Option.map_eq_some_iff.mp h
  have hlength := congrArg List.length (Split.first_eq_some.mp hp).1
  rw [List.length_drop, List.length_append, List.length_cons] at hlength
  omega

section Load
variable {σ : Type} (addMapping : σ → Bytes → Option σ)

/-- The loop of `loadMappings` from the position `i` on: the lines that `addMapping` is called with,
and the manager behind them, none if `addMapping` throws. -/
def loadFrom (content : Bytes) (s : σ) (i : Nat) : List Bytes × Option σ :=
  if i < content.length then
    match _h : find content i with
    | none =>
      let line := substr content i none
      ([line], addMapping s line)
    | some j =>
      let line := substr content i (some j)
      match addMapping s line with
      | none => ([line], none)
      | some s =>
        let (calls, s) := loadFrom content s (j + 1)
        (line :: calls, s)
  else ([], some s)
termination_by content.length - i
decreasing_by
  have := find_range _h
  omega

def loadMappings (content : Bytes) (s : σ) : List Bytes × Option σ := loadFrom addMapping content s 0

end Load

/-! ## The lines -/

section Lines
variable {σ : Type} {addMapping : σ → Bytes → Option σ} {content l l' r r' : Bytes} {s : σ} {i : Nat}

/-- Behind the last line break the text is a line. -/
theorem loadFrom_last (hi : i < content.length) (h : newline ∉ content.drop i) :
    loadFrom addMapping content s i =
      ([content.drop i], addMapping s (content.drop i)) := by
  have hfind : find content i = none := by rw [find, Split.first_eq_none.mpr h, Option.map_none]
  rw [loadFrom, if_pos hi]
  split
  · rfl
  · next hj => cases hfind.symm.trans hj

theorem find_eq (hdrop : content.drop i = l ++ newline :: r) (hl : newline ∉ l) :
    find content i = some (i + l.length) := by
  rw [find, hdrop, Split.first_append hl, Option.map_some]

theorem lt_of_drop (hdrop : content.drop i = l ++ newline :: r) : i < content.length := by
  have hlength := congrArg List.length hdrop
  rw [List.length_drop, List.length_append, List.length_cons] at hlength
  omega

/-- In front of a line break as much is taken as the text in front of it is long. -/
theorem loadFrom_line (hdrop : content.drop i = l ++ newline :: r) (hl : newline ∉ l) :
    loadFrom addMapping content s i =
      let line := (l ++ newline :: r).take (i + l.length)
      match addMapping s line with
      | none => ([line], none)
      | some s =>
        let (calls, s) := loadFrom addMapping content s (i + l.length + 1)
        (line :: calls, s) := by
  have hfind := find_eq hdrop hl
  rw [loadFrom, if_pos (lt_of_drop hdrop)]
  split
  · next hj => cases hfind.symm.trans hj
  · next j hj =>
    obtain rfl := Option.some.inj (hfind.symm.trans hj)
    rw [substr, hdrop]

/-- From the second line on that is more than the line. -/
theorem newline_mem_take (hi : 0 < i) : newline ∈ (l ++ newline :: r).take (i + l.length) := by
  rw [List.mem_take_iff_getElem]
  refine ⟨l.length, ?_, ?_⟩
  · rw [List.length_append, List.length_cons]
    omega
  · rw [List.getElem_append_right (Nat.le_refl _)]
    simp

/-- Behind the first line the calls are right if they are for the last line, or there are none. -/
theorem loadFrom_second_iff (hl : content = l ++ newline :: r) :
    (loadFrom addMapping content s (l.length + 1)).1 = Split.lines newline r ↔ newline ∉ r := by
  have hdrop : content.drop (l.length + 1) = r := by
    rw [hl, ← List.drop_drop, List.drop_left, List.drop_one, List.tail_cons]
  by_cases hr : r = []
  · subst hr
    have hlength : ¬ l.length + 1 < content.length := by simp [hl]
    rw [loadFrom, if_neg hlength, Split.lines_nil]
    exact iff_of_true rfl List.not_mem_nil
  by_cases hmem : newline ∈ r
  · refine iff_of_false (fun heq => ?_) (not_not.mpr hmem)
    obtain ⟨l', r', rfl, hl'⟩ := List.eq_append_cons_of_mem hmem
    have htake : newline ∈ (l' ++ newline :: r').take (l.length + 1 + l'.length) :=
      newline_mem_take (Nat.succ_pos _)
    have hline : (l' ++ newline :: r').take (l.length + 1 + l'.length) ∈
        Split.lines newline (l' ++ newline :: r') := by
      rw [← heq, loadFrom_line hdrop hl']
      dsimp only
      split
      · exact List.mem_singleton_self _
      · exact List.mem_cons_self
    exact Split.not_mem_of_mem_lines hline htake
  · have hlt : l.length + 1 < content.length := by
      have hpos := List.length_pos_iff.mpr hr
      rw [hl, List.length_append, List.length_cons]
      omega
    rw [loadFrom_last hlt (hdrop.symm ▸ hmem), hdrop, Split.lines_of_not_mem hr hmem]
    exact iff_of_true rfl hmem

/-- The calls are right if they are behind the first line, or there is nothing behind it. -/
theorem loadMappings_line_iff (hcontent : content = l ++ newline :: r) (hl : newline ∉ l) :
    (loadMappings addMapping content s).1 = Split.lines newline content ↔
      newline ∉ r ∧ (r ≠ [] → (addMapping s l).isSome) := by
  have hfirst : (l ++ newline :: r).take (0 + l.length) = l := by
    rw [Nat.zero_add, List.take_left]
  rw [loadMappings, loadFrom_line (i := 0) hcontent hl, hfirst, Nat.zero_add, hcontent,
    Split.lines_append hl, ← hcontent]
  dsimp only
  cases hadd : addMapping s l with
  | none =>
    rw [Option.isSome_none, List.cons_inj_right]
    constructor
    · intro h
      by_cases hr : r = []
      · exact ⟨hr ▸ List.not_mem_nil, fun h => absurd hr h⟩
      · rw [Split.lines_eq, Split.getline, if_neg hr] at h
        cases h
    · rintro ⟨-, h⟩
      by_cases hr : r = []
      · rw [hr, Split.lines_nil]
      · cases h hr
  | some s' =>
    rw [Option.isSome_some, List.cons_inj_right, loadFrom_second_iff hcontent]
    exact (and_iff_left fun _ => rfl).symm

end Lines

/-- The calls are for the lines of the text if it has one line break at most, and `addMapping` does
not throw for the line in front of it, unless that is the last one. -/
theorem loadMappings_iff {σ : Type} (addMapping : σ → Bytes → Option σ) (content : Bytes) (s : σ) :
    (loadMappings addMapping content s).1 = Split.lines newline content ↔
      content.count newline ≤ 1 ∧
        ∀ l r, content = l ++ newline :: r → r ≠ [] → (addMapping s l).isSome := by
  by_cases hmem : newline ∈ content
  · obtain ⟨l, r, hcontent, hl⟩ := List.eq_append_cons_of_mem hmem
    have hcount : content.count newline ≤ 1 ↔ newline ∉ r := by
      rw [hcontent, List.count_append, List.count_cons_self, List.count_eq_zero.mpr hl,
        ← List.count_eq_zero]
      omega
    rw [loadMappings_line_iff hcontent hl, hcount]
    refine and_congr_right fun hr => ⟨fun h l' r' heq => ?_, fun h => h l r hcontent⟩
    -- there is only one way to cut the text at its only line break
    have hl' : newline ∉ l' := by
      have hone : content.count newline ≤ 1 := hcount.mpr hr
      rw [heq, List.count_append, List.count_cons_self] at hone
      exact List.count_eq_zero.mp (by omega)
    have hsplit := (Split.first_append hl r).symm.trans (hcontent ▸ heq ▸ Split.first_append hl' r')
    cases hsplit
    exact h
  · refine iff_of_true ?_ ⟨?_, fun l r heq => absurd (heq ▸ by simp) hmem⟩
    · by_cases hcontent : content = []
      · subst hcontent
        rw [loadMappings, loadFrom, if_neg (by simp), Split.lines_nil]
      · rw [loadMappings, loadFrom_last (List.length_pos_iff.mpr hcontent) hmem,
          Split.lines_of_not_mem hcontent hmem]
        rfl
    · rw [List.count_eq_zero.mpr hmem]
      exact Nat.zero_le 1

/-- The second of two lines is taken with the line break behind it. -/
theorem loadMappings_second :
    (loadMappings (fun _ _ => some ()) [97, 10, 98, 10] ()).1 = [[97], [98, 10]] ∧
      (loadMappings (fun _ _ => some ()) [97, 10, 98, 10] ()).1 ≠
        Split.lines newline [97, 10, 98, 10] := by
  have hone : newline ∉ ([97] : Bytes) := by decide
  have htwo : newline ∉ ([98] : Bytes) := by decide
  have hcalls : (loadMappings (fun _ _ => some ()) [97, 10, 98, 10] ()).1 = [[97], [98, 10]] := by
    have hfirst : loadFrom (fun _ _ => some ()) [97, 10, 98, 10] () 0 = _ :=
      loadFrom_line (r := [98, 10]) rfl hone
    have hsecond : loadFrom (fun _ _ => some ()) [97, 10, 98, 10] () 2 = _ :=
      loadFrom_line (r := []) rfl htwo
    have hend : loadFrom (fun _ _ => some ()) [97, 10, 98, 10] () 4 = ([], some ()) := by
      rw [loadFrom, if_neg (by simp)]
    simp only [loadMappings, hfirst, hsecond, hend, List.length_cons, List.length_nil, Nat.reduceAdd]
    rfl
  have hlines : Split.lines newline [97, 10, 98, 10] = [[97], [98]] :=
    (Split.lines_append hone [98, 10]).trans
      (congrArg _ ((Split.lines_append htwo []).trans (congrArg _ Split.lines_nil)))
  rw [hcalls, hlines]
  exact ⟨rfl, by decide⟩

end GamepadMappings

end McpeLauncher.GameWindow
