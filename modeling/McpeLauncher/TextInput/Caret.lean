import McpeLauncher.TextInput.Consistency

/-!
# Caret navigation

Keys never touch the text, and they lead from consistent states to consistent states. The three
ways to move the caret count the characters differently: a single step adds one, a word move and
the end of a selection count the text before the caret again. They agree, since each of them ends
at an offset.
-/

namespace McpeLauncher.TextInput
open Utf8

/-! ## The word moves terminate -/

/-- A word loop of the right key ends within the text, however much more fuel there is. -/
theorem wordRight_terminates {text : Bytes} (stop : UInt8 → Bool) (hp : p ≤ text.length) :
    ∃ q, p ≤ q ∧ q ≤ text.length ∧
      ∀ fuel, text.length - p ≤ fuel → wordRight text stop fuel p = some q := by
  induction hn : text.length - p generalizing p with
  | zero =>
    have hend : ¬p < text.length := by omega
    refine ⟨p, Nat.le_refl p, hp, fun fuel _ => ?_⟩
    cases fuel with
    | zero => rfl
    | succ fuel => rw [wordRight, if_neg hend]
  | succ n ih =>
    have hlt : p < text.length := by omega
    by_cases hgo : p + 1 < text.length ∧ stop (text.getD (p + 1) 0) = false
    · obtain ⟨q, hpq, hq, hall⟩ := ih (p := p + 1) (by omega) (by omega)
      refine ⟨q, by omega, hq, fun fuel hfuel => ?_⟩
      obtain ⟨fuel, rfl⟩ := Nat.exists_eq_add_one.mpr (show 0 < fuel by omega)
      rw [wordRight_succ hlt, if_pos hgo]
      exact hall fuel (by omega)
    · refine ⟨p + 1, by omega, by omega, fun fuel hfuel => ?_⟩
      obtain ⟨fuel, rfl⟩ := Nat.exists_eq_add_one.mpr (show 0 < fuel by omega)
      rw [wordRight_succ hlt, if_neg hgo]

/-- A word loop of the left key ends at or before the place it begins at. -/
theorem wordLeft_terminates {text : Bytes} (stop : UInt8 → Bool) (hp : p ≤ text.length) :
    ∃ q ≤ p, wordLeft text stop p = some q := by
  induction p with
  | zero => exact ⟨0, Nat.le_refl 0, rfl⟩
  | succ p ih =>
    rw [wordLeft_succ (by omega)]
    split
    · obtain ⟨q, hq, heq⟩ := ih (by omega)
      exact ⟨q, Nat.le_succ_of_le hq, heq⟩
    · exact ⟨p, Nat.le_succ p, rfl⟩

namespace TextInputHandler

/-! ## Key presses -/

/-- The arguments of `onKeyPressed`. -/
structure KeyPress where
  key : KeyCode
  action : KeyAction
  mods : BitVec 32

def press (s : TextInputHandler) (k : KeyPress) : Option TextInputHandler :=
  s.onKeyPressed k.key k.action k.mods

/-- Neither Shift nor Alt is held. -/
def Unmodified (mods : BitVec 32) : Prop :=
  mods &&& KEY_MOD_SHIFT = 0 ∧ mods &&& KEY_MOD_ALT = 0

def SameCursors (s s' : TextInputHandler) : Prop :=
  s'.currentTextPosition = s.currentTextPosition ∧
  s'.currentTextPositionUTF = s.currentTextPositionUTF ∧
  s'.currentTextCopyPosition = s.currentTextCopyPosition ∧
  s'.currentTextCopyPositionUTF = s.currentTextCopyPositionUTF

def releaseModifiers (s : TextInputHandler) : TextInputHandler :=
  { s with shiftPressed := false
           altPressed := false }

variable {s s₁ : TextInputHandler} {cs : List Char}

theorem ConsistentWith.releaseModifiers (h : s.ConsistentWith cs) :
    s.releaseModifiers.ConsistentWith cs := ⟨h.text, h.caret, h.copy⟩

theorem onKeyPressed_of_unmodified (hmods : Unmodified mods) (haction : action ≠ .RELEASE) :
    s.onKeyPressed .RIGHT action mods = s.releaseModifiers.pressRight ∧
      s.onKeyPressed .LEFT action mods = s.releaseModifiers.pressLeft := by
  have hpress : ¬(action ≠ .PRESS ∧ action ≠ .REPEAT) := by
    cases action with
    | PRESS => simp
    | REPEAT => simp
    | RELEASE => exact absurd rfl haction
  unfold onKeyPressed
  simp only [hmods.1, hmods.2, if_neg hpress]
  exact ⟨rfl, rfl⟩

/-- Without a selection a plain step to the right goes over one character. -/
theorem ConsistentWith.pressRight_moved (h : s.ConsistentWith cs)
    (hsel : s.currentTextPosition = s.currentTextCopyPosition)
    (hs : s.releaseModifiers.pressRight = some s₁)
    (hmoved : s₁.currentTextPosition ≠ s.currentTextPosition) :
    0 < s₁.currentTextPosition ∧ s₁.currentTextPositionUTF = s.currentTextPositionUTF + 1 ∧
      s₁.currentTextPosition = s₁.currentTextCopyPosition := by
  rw [TextInputHandler.pressRight, if_neg (by simp [TextInputHandler.releaseModifiers, hsel])] at hs
  split at hs
  · cases hs
    exact absurd rfl hmoved
  · next hlt =>
    obtain ⟨j, hj, -, halign⟩ := h.releaseModifiers.alignRight (Nat.lt_of_not_le hlt)
    rw [halign] at hs
    cases hs
    exact ⟨Nat.lt_of_le_of_lt (Nat.zero_le _) hj, rfl, rfl⟩

/-- Without a selection a plain step to the left goes back to where the character before begins. -/
theorem ConsistentWith.pressLeft_moved (h : s.ConsistentWith cs)
    (hsel : s.currentTextPosition = s.currentTextCopyPosition) (hpos : 0 < s.currentTextPosition) :
    ∃ s' l, s.releaseModifiers.pressLeft = some s' ∧ s.currentTextPositionUTF = l + 1 ∧
      Offset cs s'.currentTextPosition l ∧ s'.currentTextPositionUTF = l ∧
      s'.currentTextCopyPosition = s'.currentTextPosition ∧ s'.currentTextCopyPositionUTF = l := by
  obtain ⟨j, l, hl, hoff, halign⟩ := h.releaseModifiers.alignLeft hpos
  have hpred : sizePred s.releaseModifiers.currentTextPositionUTF = l := by
    rw [hl, sizePred, if_neg (by omega), Nat.add_sub_cancel]
  have hbegin : ¬s.releaseModifiers.currentTextPosition ≤ 0 := Nat.not_le_of_lt hpos
  refine ⟨s.releaseModifiers.moveCaret j l, l, ?_, hl, hoff, rfl, rfl, rfl⟩
  rw [TextInputHandler.pressLeft, if_neg (by simp [TextInputHandler.releaseModifiers, hsel]),
    if_neg hbegin, halign, hpred]
  rfl

/-- **LEFT takes a RIGHT that moved back**: there is one character between, and it begins where
the caret was. -/
theorem ConsistentWith.left_of_right (h : s.ConsistentWith cs)
    (hsel : s.currentTextPosition = s.currentTextCopyPosition)
    (hright : s.releaseModifiers.pressRight = some s₁)
    (hmoved : s₁.currentTextPosition ≠ s.currentTextPosition) :
    ∃ s₂, s₁.releaseModifiers.pressLeft = some s₂ ∧ s.SameCursors s₂ := by
  obtain ⟨s', hs', h₁⟩ := h.releaseModifiers.pressRight
  obtain rfl : s' = s₁ := Option.some.inj (hs'.symm.trans hright)
  obtain ⟨hpos, hutf, hsel₁⟩ := h.pressRight_moved hsel hright hmoved
  obtain ⟨s₂, l, hs₂, hl, hoff, hutf₂, hcopy, hcopyUtf⟩ := h₁.pressLeft_moved hsel₁ hpos
  obtain rfl : l = s.currentTextPositionUTF := by omega
  have hback : s₂.currentTextPosition = s.currentTextPosition := hoff.unique h.caret
  have hcounts : s.currentTextPositionUTF = s.currentTextCopyPositionUTF :=
    Option.some.inj ((UTF8Util.getLength_offset h.caret).symm.trans
      (hsel ▸ UTF8Util.getLength_offset h.copy))
  exact ⟨s₂, hs₂, hback, hutf₂, by rw [hcopy, hback, hsel], by rw [hcopyUtf, hcounts]⟩

/-! ## Runs of key presses -/

theorem press_consistent (cs : List Char) (s : TextInputHandler) (k : KeyPress)
    (h : s.ConsistentWith cs) : ∃ s', press s k = some s' ∧ s'.ConsistentWith cs :=
  h.onKeyPressed k.key k.action k.mods

/-- **Key presses navigate.** In every consistent state, any sequence of them keeps the text and
leads to a consistent state. The word loops terminate wherever they begin. Without a selection, a
plain LEFT after a plain RIGHT that moved leads back. -/
theorem caret_navigation (s : TextInputHandler) (h : s.Consistent) :
    (∀ keys : List KeyPress, ∃ s', Runs.run press s keys = some s' ∧
      s'.currentText = s.currentText ∧ s'.Consistent) ∧
    (∀ stop p, p ≤ s.currentText.length →
      (∃ q, p ≤ q ∧ q ≤ s.currentText.length ∧
        ∀ fuel, s.currentText.length - p ≤ fuel → wordRight s.currentText stop fuel p = some q) ∧
      ∃ q ≤ p, wordLeft s.currentText stop p = some q) ∧
    ∀ action action' mods mods' s₁, s.currentTextPosition = s.currentTextCopyPosition →
      Unmodified mods → s.onKeyPressed .RIGHT action mods = some s₁ →
      s₁.currentTextPosition ≠ s.currentTextPosition →
      Unmodified mods' → action' ≠ .RELEASE →
      ∃ s₂, s₁.onKeyPressed .LEFT action' mods' = some s₂ ∧ s.SameCursors s₂ := by
  obtain ⟨cs, h⟩ := h
  refine ⟨fun keys => ?_, fun stop p hp =>
    ⟨wordRight_terminates stop hp, wordLeft_terminates stop hp⟩, ?_⟩
  · obtain ⟨s', hrun, h'⟩ := Runs.run_inv (fun s k h _ => press_consistent cs s k h) h
      (Runs.meets_of_forall (C := fun _ _ => True) fun k (_ : k ∈ keys) _ => trivial)
    exact ⟨s', hrun, h'.text.trans h.text.symm, cs, h'⟩
  · intro action action' mods mods' s₁ hsel hmods hright hmoved hmods' haction'
    have haction : action ≠ .RELEASE := by
      rintro rfl
      cases hright
      exact hmoved rfl
    rw [(onKeyPressed_of_unmodified hmods haction).1] at hright
    rw [(onKeyPressed_of_unmodified hmods' haction').2]
    exact h.left_of_right hsel hright hmoved

/-- Over a character of two bytes and back. -/
theorem caret_navigation_twoBytes : ∃ s₁ s₂ : TextInputHandler,
    onKeyPressed { currentText := encode ['é'] } .RIGHT .PRESS 0 = some s₁ ∧
      s₁.currentTextPosition = 2 ∧ s₁.onKeyPressed .LEFT .REPEAT 0 = some s₂ ∧
      SameCursors { currentText := encode ['é'] } s₂ := by
  have hplain : Unmodified 0 := ⟨rfl, rfl⟩
  obtain ⟨s₁, hright, hpos⟩ : ∃ s₁ : TextInputHandler,
      onKeyPressed { currentText := encode ['é'] } .RIGHT .PRESS 0 = some s₁ ∧
        s₁.currentTextPosition = 2 := ⟨_, rfl, rfl⟩
  obtain ⟨s₂, hleft, hsame⟩ := (caret_navigation { currentText := encode ['é'] }
    ⟨['é'], rfl, .zero _, .zero _⟩).2.2 .PRESS .REPEAT 0 0 s₁ rfl hplain hright
    (by rw [hpos]; decide) hplain (by decide)
  exact ⟨s₁, s₂, hright, hpos, hleft, hsame⟩

end TextInputHandler

end McpeLauncher.TextInput
