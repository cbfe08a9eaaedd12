import Mathlib.Algebra.Group.Nat.Defs
import McpeLauncher.TextInput.Caret

/-!
# Typing and erasing

What is typed is counted by its first byte, a backspace looks for where a character begins, and the
delete key for where it ends. They agree on every character, as long as the places that a backspace
looks at are positive as an `int`: at the others it stops in the middle of a character.
-/

namespace McpeLauncher.TextInput
open Utf8

/-! ## Where a backspace stops -/

/-- A backspace comes back to the beginning of the character unless a place on the way is not
positive as an `int`. -/
theorem deleteStartAlign_cases {cs : List Char} (h : Offset cs j k)
    (hcont : ∀ n b, j < n → n ≤ p → (encode cs)[n]? = some b → isContinuation b = true)
    (hp : j ≤ p) (hlt : p < (encode cs).length) :
    ∃ q, deleteStartAlign (encode cs) p = some q ∧ j ≤ q ∧ q ≤ p ∧
      (q = j ↔ ∀ n, j < n → n ≤ p → 0 < toInt n) := by
  induction p with
  | zero => exact ⟨0, rfl, hp, le_rfl, iff_of_true (by omega) fun n hn hn0 => by omega⟩
  | succ p ih =>
    have hget := List.getElem?_eq_getElem hlt
    rw [deleteStartAlign, charAt_of_lt hlt, Option.bind_eq_bind, Option.bind_some]
    by_cases hpj : j = p + 1
    · -- the character begins here
      refine ⟨p + 1, ?_, hp, le_rfl, iff_of_true hpj.symm fun n hn hnp => by omega⟩
      subst hpj
      rw [h.not_isContinuation hget]
      split <;> rfl
    · rw [hcont (p + 1) _ (by omega) le_rfl hget, if_pos rfl]
      by_cases hcast : 0 < toInt (p + 1)
      · obtain ⟨q, hq, hjq, hqp, hiff⟩ := ih (fun n b hn hnp => hcont n b hn (by omega)) (by omega)
          (by omega)
        refine ⟨q, by rw [if_pos hcast, hq], hjq, by omega, hiff.trans ⟨fun hall n hn hnp => ?_,
          fun hall n hn hnp => hall n hn (by omega)⟩⟩
        rcases Nat.lt_or_eq_of_le hnp with hlt' | rfl
        · exact hall n hn (by omega)
        · exact hcast
      · exact ⟨p + 1, if_neg hcast, hp, le_rfl,
          iff_of_false (fun heq => hpj heq.symm) fun hall => hcast (hall (p + 1) (by omega) le_rfl)⟩

/-- A character of one byte is that byte. -/
theorem val_of_encode_singleton {c : Char} {b : UInt8} (h : encode [c] = [b]) :
    c.val.toNat = b.toNat := by
  rw [encode_cons, encode_nil, List.append_nil] at h
  have hsize : c.utf8Size = 1 := by rw [← String.length_utf8EncodeChar, h, List.length_singleton]
  have hval : c.val.toNat ≤ 127 := UInt32.le_iff_toNat_le.mp (Char.utf8Size_eq_one_iff.mp hsize)
  rw [String.utf8EncodeChar_eq_singleton hsize] at h
  rw [← (List.cons.inj h).1, UInt32.toNat_toUInt8, Nat.mod_eq_of_lt (by omega)]

theorem encode_singleton_ne {c d : Char} {b : UInt8} (hd : d.val.toNat = b.toNat) (hc : c ≠ d) :
    encode [c] ≠ [b] := fun h =>
  hc (Char.ext (UInt32.toNat_inj.mp ((val_of_encode_singleton h).trans hd.symm)))

namespace TextInputHandler

/-- A backspace after `c` was typed restores the text and both cursors. -/
def TypingErased (s : TextInputHandler) (c : Char) : Prop :=
  ∃ s₁ s₂, s.onTextInput (encode [c]) = some s₁ ∧ s₁.onTextInput [8] = some s₂ ∧
    s₂.currentText = s.currentText ∧ s.SameCursors s₂

/-- Without Alt, the left key and then the delete key do what a backspace does. -/
def LeftDeleteErases (s : TextInputHandler) : Prop :=
  ∀ action mods, action ≠ .RELEASE → mods &&& KEY_MOD_ALT = 0 →
    ∃ s₁ s₂ s₃, s.onKeyPressed .LEFT action mods = some s₁ ∧ s₁.onTextInput [127] = some s₂ ∧
      s.onTextInput [8] = some s₃ ∧ s₂.currentText = s₃.currentText ∧ s₃.SameCursors s₂

/-- The bytes of `c` behind its first one come to places that are positive as an `int`, and so do
the continuation bytes right before the caret. -/
def PlacesFit (s : TextInputHandler) (c : Char) : Prop :=
  (∀ n, s.currentTextPosition < n → n < s.currentTextPosition + c.utf8Size → 0 < toInt n) ∧
    s.BackspaceOk

variable {s : TextInputHandler} {cs : List Char} {c : Char}

/-- The text without the bytes from `q` to the caret, which is left at `q`. -/
def erasedTo (s : TextInputHandler) (q utf : Nat) : TextInputHandler :=
  reportText { s with
    currentText := s.currentText.take q ++ s.currentText.drop s.currentTextPosition
    currentTextPosition := q
    currentTextPositionUTF := utf }

/-- Without Alt the condition of a backspace is about the places behind the first byte. -/
theorem ConsistentWith.backspaceOk_iff (h : s.ConsistentWith cs) (halt : s.altPressed = false)
    (hoff : Offset cs j l) (hj : j < s.currentTextPosition)
    (hcont : ∀ n b, j < n → n < s.currentTextPosition → (encode cs)[n]? = some b →
      isContinuation b = true) :
    s.BackspaceOk ↔ ∀ n, j < n → n ≤ s.currentTextPosition - 1 → 0 < toInt n := by
  have hle := h.caret.le
  rw [BackspaceOk, if_neg (by rw [halt]; decide), h.text]
  constructor
  · intro hok n hn hnp
    exact hok n (by omega) fun m b hm hmp => hcont m b (by omega) hmp
  · intro hall n hn hbefore
    refine hall n ?_ (by omega)
    -- the first byte of the character is no continuation byte
    by_contra hle'
    have hget := List.getElem?_eq_getElem (show j < (encode cs).length by omega)
    have hlead := hoff.not_isContinuation hget
    rw [hbefore j _ (by omega) hj hget] at hlead
    cases hlead

/-- What a backspace does without Alt: it erases from a place within the character before the
caret, which is the first one exactly if the places fit. -/
theorem ConsistentWith.backspace_cases (h : s.ConsistentWith cs) (halt : s.altPressed = false)
    (hpos : 0 < s.currentTextPosition) :
    ∃ j l q, Offset cs j l ∧ s.currentTextPositionUTF = l + 1 ∧ j ≤ q ∧
      q < s.currentTextPosition ∧ s.onTextInput [8] = some (s.erasedTo q l) ∧
      (q = j ↔ s.BackspaceOk) := by
  have hle := h.caret.le
  obtain ⟨j, l, hj, hl, hoff, hcont⟩ := h.caret.prev hpos
  obtain ⟨q, hq, hjq, hqp, hiff⟩ := deleteStartAlign_cases (p := s.currentTextPosition - 1) hoff
    (fun n b hn hnp => hcont n b hn (by omega)) (by omega) (by omega)
  refine ⟨j, l, q, hoff, hl, hjq, by omega, ?_,
    hiff.trans (h.backspaceOk_iff halt hoff hj hcont).symm⟩
  have hpred : sizePred s.currentTextPosition = s.currentTextPosition - 1 := by
    rw [sizePred, if_neg (by omega)]
  have hutf : ¬s.currentTextPositionUTF ≤ 0 := by omega
  have hnoAlt : ¬s.altPressed = true := by
    rw [halt]
    decide
  rw [TextInputHandler.onTextInput, if_pos rfl, TextInputHandler.backspace, if_neg hutf, hpred,
    if_neg hnoAlt]
  simp only [Option.bind_eq_bind, Option.bind_some, h.text, hq]
  rw [erase, if_pos ⟨by omega, hle⟩, hl, Nat.add_sub_cancel, erasedTo, h.text]
  rfl

/-- What typing a character does. -/
theorem ConsistentWith.type_spec (h : s.ConsistentWith cs) (hback : c ≠ '\x08')
    (hdel : c ≠ '\x7f') :
    ∃ cs₁ s₁, s.onTextInput (encode [c]) = some s₁ ∧ s₁.ConsistentWith cs₁ ∧
      Offset cs₁ s.currentTextPosition s.currentTextPositionUTF ∧
      s₁.currentText = s.currentText.take s.currentTextPosition ++ encode [c] ++
        s.currentText.drop s.currentTextPosition ∧
      s₁.currentTextPosition = s.currentTextPosition + c.utf8Size ∧
      s₁.currentTextPositionUTF = s.currentTextPositionUTF + 1 ∧ s₁.altPressed = s.altPressed := by
  obtain ⟨before, after, rfl, hlen, hcount⟩ := h.caret
  have hsize : (encode [c]).length = c.utf8Size := by
    rw [encode_cons, encode_nil, List.append_nil, String.length_utf8EncodeChar]
  have htext : s.currentText.take s.currentTextPosition ++ encode [c] ++
      s.currentText.drop s.currentTextPosition = encode (before ++ [c] ++ after) := by
    rw [h.text, ← hlen, encode_append, List.take_left, List.drop_left, encode_append, encode_append]
  have hcaret : Offset (before ++ [c] ++ after) (s.currentTextPosition + c.utf8Size)
      (s.currentTextPositionUTF + 1) :=
    ⟨before ++ [c], after, rfl, by rw [encode_append, List.length_append, hlen, hsize],
      by rw [List.length_append, hcount, List.length_singleton]⟩
  refine ⟨before ++ [c] ++ after, reportText { s with
    currentText := s.currentText.take s.currentTextPosition ++ encode [c] ++
      s.currentText.drop s.currentTextPosition
    currentTextPosition := s.currentTextPosition + c.utf8Size
    currentTextPositionUTF := s.currentTextPositionUTF + 1 }, ?_, ⟨htext, hcaret, hcaret⟩,
    ⟨before, [c] ++ after, by rw [List.append_assoc], hlen, hcount⟩, rfl, rfl, rfl, rfl⟩
  rw [TextInputHandler.onTextInput, if_neg (encode_singleton_ne rfl hback),
    if_neg (encode_singleton_ne rfl hdel), insert, if_pos (h.text ▸ h.caret.le),
    Option.bind_eq_bind, Option.bind_some, UTF8Util.getLength_offset (.end [c]), hsize]
  rfl

/-- Typing is erased if and only if the places of the bytes that were typed fit. -/
theorem ConsistentWith.typingErased_iff (h : s.ConsistentWith cs)
    (hsel : s.currentTextPosition = s.currentTextCopyPosition) (halt : s.altPressed = false)
    (hback : c ≠ '\x08') (hdel : c ≠ '\x7f') :
    s.TypingErased c ↔
      ∀ n, s.currentTextPosition < n → n < s.currentTextPosition + c.utf8Size → 0 < toInt n := by
  obtain ⟨cs₁, s₁, hs₁, h₁, hoff, htext, hpos, hutf, halt₁⟩ := h.type_spec hback hdel
  have hsize := c.utf8Size_pos
  obtain ⟨j, l, q, hj, hl, -, -, hs₂, hiff⟩ := h₁.backspace_cases (halt₁.trans halt) (by omega)
  obtain rfl : l = s.currentTextPositionUTF := by omega
  obtain rfl : j = s.currentTextPosition := hj.unique hoff
  have hcont (n : Nat) (b : UInt8) (hn : s.currentTextPosition < n)
      (hnp : n < s₁.currentTextPosition) (hb : (encode cs₁)[n]? = some b) :
      isContinuation b = true := by
    obtain ⟨i, l', hi, hl', hoff', hcont⟩ := h₁.caret.prev (by omega)
    obtain rfl : l' = s.currentTextPositionUTF := by omega
    obtain rfl := hoff'.unique hoff
    exact hcont n b hn hnp hb
  rw [h₁.backspaceOk_iff (halt₁.trans halt) hoff (by omega) hcont] at hiff
  have hcounts : s.currentTextPositionUTF = s.currentTextCopyPositionUTF :=
    Option.some.inj ((UTF8Util.getLength_offset h.caret).symm.trans
      (hsel ▸ UTF8Util.getLength_offset h.copy))
  constructor
  · rintro ⟨t₁, t₂, ht₁, ht₂, -, hcursor, -⟩
    cases hs₁.symm.trans ht₁
    cases hs₂.symm.trans ht₂
    intro n hn hnp
    exact hiff.mp hcursor n hn (by omega)
  · intro hfit
    have hq := hiff.mpr fun n hn hnp => hfit n hn (by omega)
    refine ⟨s₁, _, hs₁, hs₂, ?_, hq, rfl, hq.trans hsel, hcounts⟩
    have hle : s.currentTextPosition ≤ s.currentText.length := h.text ▸ h.caret.le
    have htake : (s.currentText.take s.currentTextPosition).length = s.currentTextPosition :=
      List.length_take_of_le hle
    have htyped : (s.currentText.take s.currentTextPosition ++ encode [c]).length =
        s₁.currentTextPosition := by
      rw [List.length_append, htake, hpos, encode_cons, encode_nil, List.append_nil,
        String.length_utf8EncodeChar]
    change s₁.currentText.take q ++ s₁.currentText.drop s₁.currentTextPosition = s.currentText
    rw [hq, ← htyped, htext, List.drop_left, List.append_assoc,
      List.take_append_of_le_length (Nat.le_of_eq htake.symm), List.take_take, Nat.min_self,
      List.take_append_drop]

/-- The left key leads to the beginning of the character before the caret. -/
theorem ConsistentWith.left_spec (h : s.ConsistentWith cs)
    (hsel : s.currentTextPosition = s.currentTextCopyPosition) (hpos : 0 < s.currentTextPosition)
    (haction : action ≠ .RELEASE) (hmods : mods &&& KEY_MOD_ALT = 0) (hoff : Offset cs j l)
    (hl : s.currentTextPositionUTF = l + 1) :
    ∃ s₁, s.onKeyPressed .LEFT action mods = some s₁ ∧ s₁.ConsistentWith cs ∧
      s₁.currentText = s.currentText ∧ s₁.currentTextPosition = j ∧
      s₁.currentTextPositionUTF = l := by
  have hpress : ¬(action ≠ .PRESS ∧ action ≠ .REPEAT) := by
    cases action <;> simp at haction ⊢
  let t : TextInputHandler := { s with
    shiftPressed := mods &&& KEY_MOD_SHIFT ≠ 0
    altPressed := false }
  have ht : t.ConsistentWith cs := ⟨h.text, h.caret, h.copy⟩
  obtain ⟨i, l', hl', hoff', halign⟩ := ht.alignLeft hpos
  obtain rfl : l' = l := Nat.succ.inj (hl'.symm.trans hl)
  obtain rfl : i = j := hoff'.unique hoff
  have hbegin : ¬t.currentTextPosition ≤ 0 := Nat.not_le_of_lt hpos
  have hpred : sizePred t.currentTextPositionUTF = l' := by
    rw [hl', sizePred, if_neg (by omega), Nat.add_sub_cancel]
  have hnosel : ¬(!t.shiftPressed && t.currentTextPosition ≠ t.currentTextCopyPosition) = true := by
    simp [t, hsel]
  have hpressLeft : t.pressLeft = some (t.moveCaret i l') := by
    rw [TextInputHandler.pressLeft, if_neg hnosel, if_neg hbegin, if_neg Bool.false_ne_true, halign,
      Option.bind_eq_bind, Option.bind_some, hpred]
    rfl
  refine ⟨t.moveCaret i l', ?_, ht.moveCaret hoff, ?_⟩
  · rw [TextInputHandler.onKeyPressed]
    simp only [hmods, if_neg hpress]
    exact hpressLeft
  · rw [TextInputHandler.moveCaret]
    split <;> exact ⟨rfl, rfl, rfl⟩

/-- The delete key erases the character behind the caret. -/
theorem ConsistentWith.delete_spec (h : s.ConsistentWith cs)
    (hlt : s.currentTextPosition < s.currentText.length)
    (hoff : Offset cs j (s.currentTextPositionUTF + 1)) :
    s.onTextInput [127] = some (reportText { s with
      currentText := s.currentText.take s.currentTextPosition ++ s.currentText.drop j }) := by
  obtain ⟨e, hie, hoffe, halign⟩ := h.alignRight hlt
  obtain rfl : e = j := hoffe.unique hoff
  have hend : e ≤ s.currentText.length := h.text ▸ hoff.le
  rw [TextInputHandler.onTextInput, if_neg (by decide), if_pos rfl, TextInputHandler.deleteKey,
    if_neg (by omega), halign, Option.bind_eq_bind, Option.bind_some, erase,
    if_pos ⟨by omega, hend⟩]
  rfl

/-- The left key and then the delete key erase the character before the caret. -/
theorem ConsistentWith.left_delete_spec (h : s.ConsistentWith cs)
    (hsel : s.currentTextPosition = s.currentTextCopyPosition) (hpos : 0 < s.currentTextPosition)
    (haction : action ≠ .RELEASE) (hmods : mods &&& KEY_MOD_ALT = 0) (hoff : Offset cs j l)
    (hl : s.currentTextPositionUTF = l + 1) :
    ∃ s₁ s₂, s.onKeyPressed .LEFT action mods = some s₁ ∧ s₁.onTextInput [127] = some s₂ ∧
      s₂.currentText = s.currentText.take j ++ s.currentText.drop s.currentTextPosition ∧
      s₂.currentTextPosition = j ∧ s₂.currentTextPositionUTF = l ∧
      s₂.currentTextCopyPosition = j ∧ s₂.currentTextCopyPositionUTF = l := by
  obtain ⟨s₁, hleft, hmoved, htext, hcaret, hutf⟩ := h.left_spec hsel hpos haction hmods hoff hl
  have hlt : j < s.currentTextPosition := by
    obtain ⟨i, l', hi, hl', hoff', -⟩ := h.caret.prev hpos
    obtain rfl : l' = l := Nat.succ.inj (hl'.symm.trans hl)
    exact hoff.unique hoff' ▸ hi
  have hend := h.caret.le
  have hin : s₁.currentTextPosition < s₁.currentText.length := by
    rw [hcaret, htext, h.text]
    omega
  have hnext : Offset cs s.currentTextPosition (s₁.currentTextPositionUTF + 1) := by
    rw [hutf, ← hl]
    exact h.caret
  refine ⟨s₁, _, hleft, hmoved.delete_spec hin hnext, ?_, hcaret, hutf, hcaret, hutf⟩
  change s₁.currentText.take s₁.currentTextPosition ++ s₁.currentText.drop s.currentTextPosition = _
  rw [htext, hcaret]

/-- The left key and then the delete key do what a backspace does if and only if its condition
holds. -/
theorem ConsistentWith.leftDeleteErases_iff (h : s.ConsistentWith cs)
    (hsel : s.currentTextPosition = s.currentTextCopyPosition) (halt : s.altPressed = false)
    (hpos : 0 < s.currentTextPosition) : s.LeftDeleteErases ↔ s.BackspaceOk := by
  obtain ⟨j, l, q, hoff, hl, -, -, hs₃, hiff⟩ := h.backspace_cases halt hpos
  rw [← hiff]
  constructor
  · intro herase
    obtain ⟨t₁, t₂, t₃, ht₁, ht₂, ht₃, -, hcursor, -⟩ := herase .PRESS 0 (by decide) (by decide)
    have hpress : KeyAction.PRESS ≠ .RELEASE := by decide
    have hmods : 0 &&& KEY_MOD_ALT = 0 := by decide
    obtain ⟨s₁, s₂, hs₁, hs₂, -, hj, -⟩ := h.left_delete_spec hsel hpos hpress hmods hoff hl
    cases hs₁.symm.trans ht₁
    cases hs₂.symm.trans ht₂
    cases hs₃.symm.trans ht₃
    exact hcursor.symm.trans hj
  · rintro rfl action mods haction hmods
    obtain ⟨s₁, s₂, hs₁, hs₂, htext, hj, hutf, hcopy, hcopyUtf⟩ :=
      h.left_delete_spec hsel hpos haction hmods hoff hl
    exact ⟨s₁, s₂, _, hs₁, hs₂, hs₃, htext, hj, hutf, hcopy, hcopyUtf⟩

/-- Typing a character and erasing it, and erasing the one before with the left key and the delete
key or with a backspace: both come to the same if and only if the places fit. -/
theorem typing_erasing_iff (h : s.Consistent)
    (hsel : s.currentTextPosition = s.currentTextCopyPosition) (halt : s.altPressed = false)
    (hback : c ≠ '\x08') (hdel : c ≠ '\x7f') :
    s.TypingErased c ∧ (0 < s.currentTextPosition → s.LeftDeleteErases) ↔ s.PlacesFit c := by
  obtain ⟨cs, h⟩ := h
  rw [PlacesFit, h.typingErased_iff hsel halt hback hdel]
  refine and_congr_right fun _ => ?_
  rcases Nat.eq_zero_or_pos s.currentTextPosition with hzero | hpos
  · refine iff_of_true (fun hpos => by omega) ?_
    rw [BackspaceOk, if_neg (by rw [halt]; decide), hzero]
    exact fun n hn => by omega
  · rw [← h.leftDeleteErases_iff hsel halt hpos]
    exact ⟨fun himp => himp hpos, fun herase _ => herase⟩

/-- The caret behind `é`. -/
def behindTwoBytes : TextInputHandler where
  currentText := encode ['é']
  currentTextPosition := 2
  currentTextPositionUTF := 1
  currentTextCopyPosition := 2
  currentTextCopyPositionUTF := 1

theorem typing_erasing_behindTwoBytes :
    behindTwoBytes.TypingErased 'ß' ∧
      (0 < behindTwoBytes.currentTextPosition → behindTwoBytes.LeftDeleteErases) := by
  refine (typing_erasing_iff ⟨['é'], rfl, .end ['é'], .end ['é']⟩ rfl rfl (by decide)
    (by decide)).mpr ⟨fun n hn hnp => ?_, fun n hn _ => ?_⟩
  · obtain rfl : n = 3 := Nat.le_antisymm (Nat.le_of_lt_succ hnp) hn
    decide
  · obtain rfl | rfl : n = 0 ∨ n = 1 := by
      have : n < 2 := hn
      omega
    · rename_i hcont
      exact absurd (hcont 0 _ le_rfl hn rfl) (by decide)
    · decide

/-- `n` letters with the caret behind them. -/
def behindLetters (n : Nat) : TextInputHandler where
  currentText := encode (List.replicate n 'a')
  currentTextPosition := n
  currentTextPositionUTF := n
  currentTextCopyPosition := n
  currentTextCopyPositionUTF := n

theorem length_encode_letters (n : Nat) : (encode (List.replicate n 'a')).length = n := by
  induction n with
  | zero => rfl
  | succ n ih =>
    rw [List.replicate_succ, encode_cons, List.length_append, ih]
    exact Nat.add_comm 1 n

/-- Behind `2 ^ 31 - 1` letters the second byte of `é` is at a place that is negative as an `int`:
a backspace erases only this byte. -/
theorem not_typingErased_behindLetters : ¬(behindLetters (2 ^ 31 - 1)).TypingErased 'é' := by
  have hend : Offset (List.replicate (2 ^ 31 - 1) 'a') (2 ^ 31 - 1) (2 ^ 31 - 1) := by
    have h := Offset.end (List.replicate (2 ^ 31 - 1) 'a')
    rwa [length_encode_letters, List.length_replicate] at h
  have h : (behindLetters (2 ^ 31 - 1)).ConsistentWith (List.replicate (2 ^ 31 - 1) 'a') :=
    ⟨rfl, hend, hend⟩
  rw [h.typingErased_iff rfl rfl (by decide) (by decide)]
  intro hfit
  have hplace : 0 < toInt (2 ^ 31) := hfit (2 ^ 31) (by decide) (by decide)
  exact absurd hplace (by decide)

end TextInputHandler

end McpeLauncher.TextInput
