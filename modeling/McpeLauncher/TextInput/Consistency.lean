import Mathlib.Data.List.GetD
import Mathlib.Data.Nat.Find
import McpeLauncher.Lib.Runs
import McpeLauncher.TextInput.TextInputHandler

/-!
# Consistency of the cursors

In a consistent state the text is valid UTF-8, and each cursor is at the beginning of a character
or at the end of the text, with the right number of characters before it. Most calls preserve this.
The exceptions are the deletion of a word behind text that is not ASCII, where the number of bytes
before the word is taken for the number of characters, a caret beyond the end, and keeping the last
character of a text when that has four bytes. `CallOk` excludes these, and casts to `int` that
overflow.
-/

namespace McpeLauncher.TextInput
open Utf8

/-! ## Reading the text -/

theorem charAt_of_lt {text : Bytes} (h : i < text.length) : charAt text i = some text[i] := by
  rw [charAt, if_neg (Nat.ne_of_lt h), List.getElem?_eq_getElem h]

theorem isAscii_of_isSpace (h : isSpace c = true) : isAscii c = true := by
  simp only [isSpace, Bool.or_eq_true, decide_eq_true_eq] at h
  rcases h with rfl | h
  · decide
  · have hall : spaces.all isAscii = true := by decide
    exact List.all_eq_true.mp hall c h

/-- A blank begins a character, and one begins behind it. -/
theorem offset_of_isSpace {cs : List Char} (hi : i < (encode cs).length)
    (h : isSpace (encode cs)[i] = true) : (∃ k, Offset cs i k) ∧ ∃ k, Offset cs (i + 1) k := by
  have hget := List.getElem?_eq_getElem hi
  have hascii := isAscii_of_isSpace h
  refine ⟨exists_offset (Nat.le_of_lt hi) fun b hb => ?_, exists_offset_succ hget hascii⟩
  rw [hget, Option.some.injEq] at hb
  exact hb ▸ not_isContinuation_of_isAscii hascii

/-! ## The loops -/

section Loops
variable {cs : List Char}

theorem alignRight_spec (h : Offset cs j k)
    (hcont : ∀ n b, p ≤ n → n < j → (encode cs)[n]? = some b → isContinuation b = true)
    (hp : p ≤ j) (hfuel : j - p ≤ fuel) : alignRight (encode cs) fuel p = some j := by
  induction fuel generalizing p with
  | zero =>
    rw [alignRight, Option.some.injEq]
    omega
  | succ fuel ih =>
    rw [alignRight]
    split
    · next hlt =>
      have hget := List.getElem?_eq_getElem hlt
      rw [charAt_of_lt hlt, Option.bind_eq_bind, Option.bind_some]
      by_cases hpj : p = j
      · subst hpj
        rw [h.not_isContinuation hget]
        rfl
      · rw [hcont p _ (Nat.le_refl p) (by omega) hget, if_pos rfl]
        exact ih (fun n b hn => hcont n b (by omega)) (by omega) (by omega)
    · have := h.le
      rw [Option.some.injEq]
      omega

theorem alignLeft_spec (h : Offset cs j k)
    (hcont : ∀ n b, j < n → n ≤ p → (encode cs)[n]? = some b → isContinuation b = true)
    (hp : j ≤ p) (hlt : p < (encode cs).length) : alignLeft (encode cs) p = some j := by
  induction p with
  | zero => rw [alignLeft, Option.some.injEq]; omega
  | succ p ih =>
    have hget := List.getElem?_eq_getElem hlt
    rw [alignLeft, charAt_of_lt hlt, Option.bind_eq_bind, Option.bind_some]
    by_cases hpj : j = p + 1
    · subst hpj
      rw [h.not_isContinuation hget]
      rfl
    · rw [hcont (p + 1) _ (by omega) (Nat.le_refl _) hget, if_pos rfl]
      exact ih (fun n b hn hnp => hcont n b hn (by omega)) (by omega) (by omega)

theorem deleteStartAlign_spec (h : Offset cs j k)
    (hcont : ∀ n b, j < n → n ≤ p → (encode cs)[n]? = some b → isContinuation b = true)
    (hcast : ∀ n, j < n → n ≤ p → 0 < toInt n) (hp : j ≤ p) (hlt : p < (encode cs).length) :
    deleteStartAlign (encode cs) p = some j := by
  induction p with
  | zero => rw [deleteStartAlign, Option.some.injEq]; omega
  | succ p ih =>
    have hget := List.getElem?_eq_getElem hlt
    rw [deleteStartAlign, charAt_of_lt hlt, Option.bind_eq_bind, Option.bind_some]
    by_cases hpj : j = p + 1
    · subst hpj
      rw [h.not_isContinuation hget]
      split <;> rfl
    · rw [if_pos (hcast (p + 1) (by omega) (Nat.le_refl _)),
        hcont (p + 1) _ (by omega) (Nat.le_refl _) hget, if_pos rfl]
      exact ih (fun n b hn hnp => hcont n b hn (by omega))
        (fun n hn hnp => hcast n hn (by omega)) (by omega) (by omega)

/-- One round of a word loop of the right key. -/
theorem wordRight_succ {text : Bytes} {stop : UInt8 → Bool} (hp : p < text.length) :
    wordRight text stop (fuel + 1) p =
      if p + 1 < text.length ∧ stop (text.getD (p + 1) 0) = false then
        wordRight text stop fuel (p + 1)
      else some (p + 1) := by
  rw [wordRight, if_pos hp]
  split
  · rw [if_neg fun h => by omega]
  · next hlast =>
    have hnext : p + 1 < text.length := by omega
    rw [charAt_of_lt hnext, List.getD_eq_getElem text 0 hnext, Option.bind_eq_bind,
      Option.bind_some]
    cases hstop : stop text[p + 1] with
    | false => rw [if_neg Bool.false_ne_true, if_pos ⟨hnext, rfl⟩]
    | true =>
      rw [if_pos rfl, if_neg fun h => Bool.false_ne_true h.2.symm]
      rfl

/-- One round of a word loop of the left key. -/
theorem wordLeft_succ {text : Bytes} {stop : UInt8 → Bool} (hp : p < text.length + 1) :
    wordLeft text stop (p + 1) =
      if 0 < p ∧ stop (text.getD (p - 1) 0) = false then wordLeft text stop p else some p := by
  rw [wordLeft]
  split
  · rw [if_neg fun h => by omega]
  · next hfirst =>
    have hprev : p - 1 < text.length := by omega
    rw [charAt_of_lt hprev, List.getD_eq_getElem text 0 hprev, Option.bind_eq_bind,
      Option.bind_some]
    cases hstop : stop text[p - 1] with
    | false => rw [if_neg Bool.false_ne_true, if_pos ⟨by omega, rfl⟩]
    | true =>
      rw [if_pos rfl, if_neg fun h => Bool.false_ne_true h.2.symm]
      rfl

/-- Behind blanks: the loop ends at the end or behind a blank. -/
theorem wordRight_blanks (hp : p < (encode cs).length) (hspace : isSpace (encode cs)[p] = true)
    (hfuel : (encode cs).length - p ≤ fuel) :
    ∃ q k, wordRight (encode cs) (fun c => !isSpace c) fuel p = some q ∧ Offset cs q k := by
  induction fuel generalizing p with
  | zero => omega
  | succ fuel ih =>
    obtain ⟨-, k, hk⟩ := offset_of_isSpace hp hspace
    rw [wordRight_succ hp]
    split
    · next hgo =>
      obtain ⟨hlt, hnext⟩ := hgo
      rw [List.getD_eq_getElem _ 0 hlt, Bool.not_eq_false'] at hnext
      exact ih hlt hnext (by omega)
    · exact ⟨p + 1, k, rfl, hk⟩

/-- To the next blank or to the end. -/
theorem wordRight_word (hp : p < (encode cs).length) (hfuel : (encode cs).length - p ≤ fuel) :
    ∃ q k, wordRight (encode cs) isSpace fuel p = some q ∧ Offset cs q k := by
  induction fuel generalizing p with
  | zero => omega
  | succ fuel ih =>
    rw [wordRight_succ hp]
    split
    · next hgo => exact ih hgo.1 (by omega)
    · next hstop =>
      by_cases hlt : p + 1 < (encode cs).length
      · rw [List.getD_eq_getElem _ 0 hlt, not_and, Bool.not_eq_false] at hstop
        obtain ⟨⟨k, hk⟩, -⟩ := offset_of_isSpace hlt (hstop hlt)
        exact ⟨p + 1, k, rfl, hk⟩
      · have hend : p + 1 = (encode cs).length := by omega
        exact ⟨p + 1, cs.length, rfl, by rw [hend]; exact .end cs⟩

/-- Before blanks: the loop ends at the beginning or at a blank. -/
theorem wordLeft_blanks (hp : p < (encode cs).length) (hspace : isSpace (encode cs)[p] = true) :
    ∃ q k, wordLeft (encode cs) (fun c => !isSpace c) (p + 1) = some q ∧ Offset cs q k ∧ q ≤ p := by
  induction p with
  | zero => exact ⟨0, 0, rfl, .zero cs, Nat.le_refl 0⟩
  | succ p ih =>
    have hlt : p < (encode cs).length := by omega
    rw [wordLeft_succ (by omega), Nat.add_sub_cancel, List.getD_eq_getElem _ 0 hlt]
    split
    · next hgo =>
      obtain ⟨q, k, hq, hk, hle⟩ := ih hlt (by simpa using hgo.2)
      exact ⟨q, k, hq, hk, by omega⟩
    · obtain ⟨⟨k, hk⟩, -⟩ := offset_of_isSpace hp hspace
      exact ⟨p + 1, k, rfl, hk, Nat.le_refl _⟩

/-- To the last blank before or to the beginning. -/
theorem wordLeft_word (hp : p ≤ (encode cs).length) :
    ∃ q k, wordLeft (encode cs) isSpace p = some q ∧ Offset cs q k := by
  induction p with
  | zero => exact ⟨0, 0, rfl, .zero cs⟩
  | succ p ih =>
    rw [wordLeft_succ (by omega)]
    split
    · exact ih (by omega)
    · next hstop =>
      by_cases hpos : 0 < p
      · have hlt : p - 1 < (encode cs).length := by omega
        rw [List.getD_eq_getElem _ 0 hlt, not_and, Bool.not_eq_false] at hstop
        obtain ⟨-, k, hk⟩ := offset_of_isSpace hlt (hstop hpos)
        rw [Nat.sub_add_cancel hpos] at hk
        exact ⟨p, k, rfl, hk⟩
      · have hzero : p = 0 := by omega
        exact ⟨p, 0, rfl, by rw [hzero]; exact .zero cs⟩

theorem skipWordRight_spec (hp : p < (encode cs).length) (h : Offset cs p k) :
    ∃ q l, skipWordRight (encode cs) p = some q ∧ Offset cs q l := by
  have hword : ∀ p k, Offset cs p k →
      ∃ q l, wordRight (encode cs) isSpace (encode cs).length p = some q ∧ Offset cs q l := by
    intro p k h
    rcases Nat.lt_or_ge p (encode cs).length with hp | hp
    · exact wordRight_word hp (by omega)
    · refine ⟨p, k, ?_, h⟩
      cases (encode cs).length with
      | zero => rfl
      | succ n => rw [wordRight, if_neg (by have := h.le; omega)]
  rw [skipWordRight, charAt_of_lt hp, Option.bind_eq_bind, Option.bind_some]
  split
  · next hspace =>
    obtain ⟨q, l, hq, hl⟩ := wordRight_blanks hp hspace (Nat.sub_le (encode cs).length p)
    rw [hq]
    exact hword q l hl
  · exact hword p k h

theorem skipWordLeft_spec (hpos : 0 < p) (hp : p ≤ (encode cs).length) :
    ∃ q l, skipWordLeft (encode cs) p = some q ∧ Offset cs q l := by
  have hlt : p - 1 < (encode cs).length := by omega
  rw [skipWordLeft, charAt_of_lt hlt, Option.bind_eq_bind, Option.bind_some]
  split
  · next hspace =>
    obtain ⟨q, l, hq, hl, _⟩ := wordLeft_blanks hlt hspace
    rw [Nat.sub_add_cancel hpos] at hq
    rw [hq]
    exact wordLeft_word hl.le
  · exact wordLeft_word hp

/-- The last place before `d` where the byte here or the one before is a `stop`, or 0. -/
def lastStop (text : Bytes) (stop : UInt8 → Bool) (d : Nat) : Nat :=
  Nat.findGreatest (fun k => stop (text.getD (k - 1) 0) = true ∨ stop (text.getD k 0) = true) (d - 1)

theorem lastStop_le (text : Bytes) (stop : UInt8 → Bool) (d : Nat) : lastStop text stop d ≤ d - 1 :=
  Nat.findGreatest_le _

theorem deleteStartLoop_spec {text : Bytes} {stop : UInt8 → Bool} (hd : d ≤ text.length)
    (hcast : ∀ n, lastStop text stop d < n → n ≤ d → 0 < toInt n) :
    deleteStartLoop text stop d = some (lastStop text stop d) := by
  induction d with
  | zero => rfl
  | succ d ih =>
    have hle := lastStop_le text stop (d + 1)
    rw [deleteStartLoop, if_pos (hcast (d + 1) (by omega) (Nat.le_refl _))]
    cases d with
    | zero => rfl
    | succ d =>
      have hbefore : charAt text (d + 1 - 1) = some (text.getD d 0) := by
        rw [Nat.add_sub_cancel, charAt_of_lt (by omega), List.getD_eq_getElem]
      have hhere : charAt text (d + 1) = some (text.getD (d + 1) 0) := by
        rw [charAt_of_lt (by omega), List.getD_eq_getElem]
      have hstop : lastStop text stop (d + 1 + 1) =
          if stop (text.getD d 0) = true ∨ stop (text.getD (d + 1) 0) = true then d + 1
          else lastStop text stop (d + 1) := by
        simp only [lastStop, Nat.add_sub_cancel, Nat.findGreatest_succ]
      rw [if_neg (by omega), hbefore, hhere]
      simp only [Option.bind_eq_bind, Option.bind_some, Option.pure_def]
      by_cases h1 : stop (text.getD d 0) = true
      · rw [if_pos h1, hstop, if_pos (.inl h1)]
      · by_cases h2 : stop (text.getD (d + 1) 0) = true
        · rw [if_neg h1, if_pos h2, hstop, if_pos (.inr h2)]
        · have hnot : ¬(stop (text.getD d 0) = true ∨ stop (text.getD (d + 1) 0) = true) :=
            fun h => h.elim h1 h2
          rw [hstop, if_neg hnot] at hcast ⊢
          rw [if_neg h1, if_neg h2]
          exact ih (by omega) fun n hn hnd => hcast n hn (by omega)

/-- Where the last word before the cursor begins, for the word deletion: first the blanks right
before the cursor are passed, then the word. -/
def wordStart (text : Bytes) (pos : Nat) : Nat :=
  lastStop text isSpace
    (if isSpace (text.getD (pos - 1) 0) then lastStop text (fun c => !isSpace c) (pos - 1)
      else pos - 1)

theorem wordStart_lt (text : Bytes) (hpos : 0 < pos) : wordStart text pos < pos := by
  have hblanks := lastStop_le text (fun c => !isSpace c) (pos - 1)
  unfold wordStart
  split
  · have := lastStop_le text isSpace (lastStop text (fun c => !isSpace c) (pos - 1))
    omega
  · have := lastStop_le text isSpace (pos - 1)
    omega

theorem wordDeleteStart_spec {text : Bytes} (hpos : 0 < pos) (hle : pos ≤ text.length)
    (hcast : ∀ n, wordStart text pos < n → n < pos → 0 < toInt n) :
    wordDeleteStart text (pos - 1) = some (wordStart text pos) := by
  have hget : charAt text (pos - 1) = some (text.getD (pos - 1) 0) := by
    rw [charAt_of_lt (by omega), List.getD_eq_getElem]
  rw [wordDeleteStart, hget, Option.bind_eq_bind, Option.bind_some]
  by_cases hspace : isSpace (text.getD (pos - 1) 0) = true
  · have hw : wordStart text pos =
        lastStop text isSpace (lastStop text (fun c => !isSpace c) (pos - 1)) := by
      rw [wordStart, if_pos hspace]
    rw [hw] at hcast ⊢
    have h1 := lastStop_le text (fun c => !isSpace c) (pos - 1)
    have h2 := lastStop_le text isSpace (lastStop text (fun c => !isSpace c) (pos - 1))
    rw [if_pos hspace, deleteStartLoop_spec (by omega) fun n hn hnp => hcast n (by omega) (by omega),
      Option.bind_eq_bind, Option.bind_some]
    exact deleteStartLoop_spec (by omega) fun n hn hnp => hcast n hn (by omega)
  · have hw : wordStart text pos = lastStop text isSpace (pos - 1) := by
      rw [wordStart, if_neg hspace]
    rw [hw] at hcast ⊢
    rw [if_neg hspace]
    exact deleteStartLoop_spec (by omega) fun n hn hnp => hcast n hn (by omega)

end Loops

/-! ## Consistent states -/

namespace TextInputHandler

/-- The text is the encoding of `cs`, and the cursors are offsets in it. -/
structure ConsistentWith (cs : List Char) (s : TextInputHandler) : Prop where
  text : s.currentText = encode cs
  caret : Offset cs s.currentTextPosition s.currentTextPositionUTF
  copy : Offset cs s.currentTextCopyPosition s.currentTextCopyPositionUTF

/-- The text is valid UTF-8, and both cursors are at the beginning of a character or at the end of
the text, with their numbers of characters before them. -/
def Consistent (s : TextInputHandler) : Prop := ∃ cs, s.ConsistentWith cs

/-- The condition for a backspace. Without Alt, the places of the continuation bytes right before
the caret are positive as an `int`. With Alt, there are only ASCII bytes before the word that is
deleted, and the places inside of it are positive as an `int`. -/
def BackspaceOk (s : TextInputHandler) : Prop :=
  if s.altPressed then
    (∀ n b, n < wordStart s.currentText s.currentTextPosition → s.currentText[n]? = some b →
      isAscii b = true) ∧
    ∀ n, wordStart s.currentText s.currentTextPosition < n → n < s.currentTextPosition → 0 < toInt n
  else
    ∀ n, n < s.currentTextPosition → (∀ m b, n ≤ m → m < s.currentTextPosition →
      s.currentText[m]? = some b → isContinuation b = true) → 0 < toInt n

/-- The number of code points in a text: each has one byte that is no continuation byte. -/
def codePoints (text : Bytes) : Nat := text.countP fun b => !isContinuation b

/-- The condition on a call. -/
def CallOk (s : TextInputHandler) : Call → Prop
  | .enable _ _ => s.keepOnce = true → endsWithSize s.currentText 4 = false
  | .onTextInput text => encode text.toList = [8] → 0 < s.currentTextPositionUTF → s.BackspaceOk
  | .setCursorPosition pos => pos ≤ codePoints s.currentText
  | _ => True

variable {s : TextInputHandler} {cs : List Char}

theorem ConsistentWith.reportCaret (h : s.ConsistentWith cs) : s.reportCaret.ConsistentWith cs :=
  ⟨h.text, h.caret, h.copy⟩

theorem ConsistentWith.moveCaret (h : s.ConsistentWith cs) (hpos : Offset cs pos utf) :
    (s.moveCaret pos utf).ConsistentWith cs := by
  apply ConsistentWith.reportCaret
  split
  · exact ⟨h.text, hpos, h.copy⟩
  · exact ⟨h.text, hpos, hpos⟩

theorem ConsistentWith.collapse (h : s.ConsistentWith cs) (hpos : Offset cs pos utf) :
    ∃ s', s.collapse pos = some s' ∧ s'.ConsistentWith cs := by
  refine ⟨_, ?_, ConsistentWith.reportCaret (s := resetCopyPosition
    { s with currentTextPosition := pos, currentTextPositionUTF := utf }) ⟨h.text, hpos, hpos⟩⟩
  simp only [TextInputHandler.collapse, h.text, UTF8Util.getLength_offset hpos, Option.bind_eq_bind,
    Option.bind_some, Option.pure_def]

theorem reportText_consistent (htext : s.currentText = encode cs)
    (hpos : Offset cs s.currentTextPosition s.currentTextPositionUTF) : s.reportText.Consistent :=
  ⟨cs, htext, hpos, hpos⟩

theorem update_consistent (s : TextInputHandler) (cs : List Char) :
    ∃ s', s.update (encode cs) = some s' ∧ s'.Consistent := by
  refine ⟨resetCopyPosition { s with
    currentText := encode cs, currentTextPosition := (encode cs).length
    currentTextPositionUTF := cs.length }, ?_, cs, rfl, .end cs, .end cs⟩
  rw [update, UTF8Util.getLength_offset (.end cs)]
  rfl

/-! ## Editing -/

theorem ConsistentWith.backspace (h : s.ConsistentWith cs)
    (hok : 0 < s.currentTextPositionUTF → s.BackspaceOk) :
    ∃ s', s.backspace = some s' ∧ s'.Consistent := by
  unfold TextInputHandler.backspace
  split
  · exact ⟨s, rfl, cs, h⟩
  · next hutf =>
    have hutf : 0 < s.currentTextPositionUTF := by omega
    have hpos : 0 < s.currentTextPosition := h.caret.pos_iff.mp hutf
    have hle : s.currentTextPosition ≤ (encode cs).length := h.caret.le
    have hpred : sizePred s.currentTextPosition = s.currentTextPosition - 1 := by
      rw [sizePred, if_neg (by omega)]
    have hok := hok hutf
    rw [BackspaceOk, h.text] at hok
    -- what is left to do from the start of the deletion, before and after its alignment
    have hfinish : ∀ start j k, Offset cs j k → j < s.currentTextPosition →
        deleteStartAlign (encode cs) start = some j → ∃ s', (do
          let deleteStart ← deleteStartAlign (encode cs) start
          let text ← erase (encode cs) deleteStart s.currentTextPosition
          return reportText { s with currentText := text, currentTextPosition := deleteStart
                                     currentTextPositionUTF := k }) = some s' ∧ s'.Consistent := by
      intro start j k hj hlt halign
      obtain ⟨cs', hcs', hj'⟩ := hj.erase h.caret (Nat.le_of_lt hlt)
      refine ⟨_, ?_, reportText_consistent (s := { s with
        currentText := encode cs', currentTextPosition := j, currentTextPositionUTF := k }) rfl hj'⟩
      rw [halign, Option.bind_eq_bind, Option.bind_some, erase,
        if_pos ⟨Nat.le_of_lt hlt, hle⟩, ← hcs']
      rfl
    rw [hpred, h.text]
    split at hok
    · next halt =>
      obtain ⟨hascii, hcast⟩ := hok
      have hlt := wordStart_lt (encode cs) hpos
      obtain ⟨k, hk⟩ : ∃ k, Offset cs (wordStart (encode cs) s.currentTextPosition) k := by
        rcases Nat.eq_zero_or_pos (wordStart (encode cs) s.currentTextPosition) with h0 | h0
        · exact ⟨0, by rw [h0]; exact .zero cs⟩
        · have hprev : wordStart (encode cs) s.currentTextPosition - 1 < (encode cs).length := by omega
          have hget := List.getElem?_eq_getElem hprev
          have := exists_offset_succ hget (hascii _ _ (by omega) hget)
          rwa [Nat.sub_add_cancel h0] at this
      obtain rfl := hk.eq_of_ascii hascii
      rw [if_pos halt, wordDeleteStart_spec hpos hle hcast]
      exact hfinish _ _ _ hk hlt (deleteStartAlign_spec hk (fun n b hn hnp => by omega)
        (fun n hn hnp => by omega) (Nat.le_refl _) (by omega))
    · next halt =>
      obtain ⟨j, l, hj, hl, hoff, hcont⟩ := h.caret.prev hpos
      rw [if_neg halt]
      refine hfinish _ j _ (by rw [hl]; exact hoff) hj
        (deleteStartAlign_spec hoff (fun n b hn hnp => hcont n b hn (by omega))
          (fun n hn hnp => hok n (by omega) fun m b hm => hcont m b (by omega))
          (by omega) (by omega))

/-- The next character begins where the caret comes to over continuation bytes. -/
theorem ConsistentWith.alignRight (h : s.ConsistentWith cs)
    (hlt : s.currentTextPosition < s.currentText.length) :
    ∃ j, s.currentTextPosition < j ∧ Offset cs j (s.currentTextPositionUTF + 1) ∧
      TextInput.alignRight s.currentText s.currentText.length (s.currentTextPosition + 1) =
        some j := by
  rw [h.text] at hlt ⊢
  obtain ⟨j, hj, hoff, hcont⟩ := h.caret.next hlt
  refine ⟨j, hj, hoff, alignRight_spec hoff (fun n b hn => hcont n b (by omega)) hj ?_⟩
  have := hoff.le
  omega

/-- So does the one before. -/
theorem ConsistentWith.alignLeft (h : s.ConsistentWith cs) (hpos : 0 < s.currentTextPosition) :
    ∃ j l, s.currentTextPositionUTF = l + 1 ∧ Offset cs j l ∧
      TextInput.alignLeft s.currentText (s.currentTextPosition - 1) = some j := by
  have hle := h.caret.le
  rw [h.text]
  obtain ⟨j, l, hj, hl, hoff, hcont⟩ := h.caret.prev hpos
  exact ⟨j, l, hl, hoff,
    alignLeft_spec hoff (fun n b hn hnp => hcont n b hn (by omega)) (by omega) (by omega)⟩

theorem ConsistentWith.deleteKey (h : s.ConsistentWith cs) :
    ∃ s', s.deleteKey = some s' ∧ s'.Consistent := by
  unfold TextInputHandler.deleteKey
  split
  · exact ⟨s, rfl, cs, h⟩
  · next hlt =>
    obtain ⟨j, hj, hoff, halign⟩ := h.alignRight (by omega)
    rw [h.text] at halign
    obtain ⟨cs', hcs', hoff'⟩ := h.caret.erase hoff (Nat.le_of_lt hj)
    refine ⟨_, ?_, reportText_consistent (s := { s with currentText := encode cs' }) rfl hoff'⟩
    rw [h.text, halign, Option.bind_eq_bind, Option.bind_some, erase,
      if_pos ⟨Nat.le_of_lt hj, hoff.le⟩, ← hcs']
    rfl

theorem ConsistentWith.onTextInput (h : s.ConsistentWith cs) (new : List Char)
    (hok : encode new = [8] → 0 < s.currentTextPositionUTF → s.BackspaceOk) :
    ∃ s', s.onTextInput (encode new) = some s' ∧ s'.Consistent := by
  unfold TextInputHandler.onTextInput
  split
  · next hback => exact h.backspace (hok hback)
  · split
    · exact h.deleteKey
    · obtain ⟨cs', hcs', hoff⟩ := h.caret.insert new
      refine ⟨_, ?_, reportText_consistent (s := { s with
        currentText := encode cs'
        currentTextPosition := s.currentTextPosition + (encode new).length
        currentTextPositionUTF := s.currentTextPositionUTF + new.length }) rfl hoff⟩
      rw [insert, h.text, if_pos h.caret.le, ← hcs', Option.bind_eq_bind, Option.bind_some,
        UTF8Util.getLength_offset (.end new)]
      rfl

/-! ## Moving the caret -/

theorem ConsistentWith.offset_max (h : s.ConsistentWith cs) :
    ∃ k, Offset cs (max s.currentTextPosition s.currentTextCopyPosition) k := by
  rcases Nat.le_total s.currentTextPosition s.currentTextCopyPosition with hle | hle
  · exact ⟨_, by rw [Nat.max_eq_right hle]; exact h.copy⟩
  · exact ⟨_, by rw [Nat.max_eq_left hle]; exact h.caret⟩

theorem ConsistentWith.offset_min (h : s.ConsistentWith cs) :
    ∃ k, Offset cs (min s.currentTextPosition s.currentTextCopyPosition) k := by
  rcases Nat.le_total s.currentTextPosition s.currentTextCopyPosition with hle | hle
  · exact ⟨_, by rw [Nat.min_eq_left hle]; exact h.caret⟩
  · exact ⟨_, by rw [Nat.min_eq_right hle]; exact h.copy⟩

theorem ConsistentWith.pressRight (h : s.ConsistentWith cs) :
    ∃ s', s.pressRight = some s' ∧ s'.ConsistentWith cs := by
  unfold TextInputHandler.pressRight
  split
  · obtain ⟨k, hk⟩ := h.offset_max
    exact h.collapse hk
  · split
    · exact ⟨s, rfl, h⟩
    · next hlt =>
      have hlt : s.currentTextPosition < s.currentText.length := by omega
      split
      · rw [h.text] at hlt
        obtain ⟨q, l, hq, hl⟩ := skipWordRight_spec hlt h.caret
        refine ⟨_, ?_, h.moveCaret hl⟩
        simp only [h.text, hq, UTF8Util.getLength_offset hl, Option.bind_eq_bind, Option.bind_some,
          Option.pure_def]
      · obtain ⟨j, -, hoff, halign⟩ := h.alignRight hlt
        refine ⟨_, ?_, h.moveCaret hoff⟩
        rw [halign]
        rfl

theorem ConsistentWith.pressLeft (h : s.ConsistentWith cs) :
    ∃ s', s.pressLeft = some s' ∧ s'.ConsistentWith cs := by
  unfold TextInputHandler.pressLeft
  split
  · obtain ⟨k, hk⟩ := h.offset_min
    exact h.collapse hk
  · split
    · exact ⟨s, rfl, h⟩
    · next hpos =>
      have hpos : 0 < s.currentTextPosition := by omega
      split
      · obtain ⟨q, l, hq, hl⟩ := skipWordLeft_spec hpos h.caret.le
        refine ⟨_, ?_, h.moveCaret hl⟩
        simp only [h.text, hq, UTF8Util.getLength_offset hl, Option.bind_eq_bind, Option.bind_some,
          Option.pure_def]
      · obtain ⟨j, l, hl, hoff, halign⟩ := h.alignLeft hpos
        refine ⟨_, ?_, h.moveCaret hoff⟩
        rw [halign, hl, sizePred, if_neg (by omega), Nat.add_sub_cancel]
        rfl

theorem ConsistentWith.onKeyPressed (h : s.ConsistentWith cs) (key : KeyCode) (action : KeyAction)
    (mods : BitVec 32) : ∃ s', s.onKeyPressed key action mods = some s' ∧ s'.ConsistentWith cs := by
  have hmods : ({ s with shiftPressed := mods &&& KEY_MOD_SHIFT ≠ 0
                         altPressed := mods &&& KEY_MOD_ALT ≠ 0 } : TextInputHandler).ConsistentWith
      cs := ⟨h.text, h.caret, h.copy⟩
  unfold TextInputHandler.onKeyPressed
  simp only
  split
  · exact ⟨_, rfl, hmods⟩
  · cases key with
    | RIGHT => exact hmods.pressRight
    | LEFT => exact hmods.pressLeft
    | HOME => exact ⟨_, rfl, hmods.moveCaret (.zero cs)⟩
    | END =>
      refine ⟨_, ?_, hmods.moveCaret (.end cs)⟩
      simp only [h.text, UTF8Util.getLength_offset (.end cs), Option.bind_eq_bind, Option.bind_some,
        Option.pure_def]
    | other _ => exact ⟨_, rfl, hmods⟩

theorem codePoints_encode (cs : List Char) : codePoints (encode cs) = cs.length := by
  induction cs with
  | nil => rfl
  | cons c cs ih =>
    obtain ⟨lead, rest, heq, hlead, hrest, _⟩ := encodeChar_lead c
    have hzero : rest.countP (fun b => !isContinuation b) = 0 :=
      List.countP_eq_zero.mpr fun b hb => by simp [hrest b hb]
    rw [codePoints] at ih
    rw [codePoints, encode_cons, heq, List.countP_append, List.countP_cons, hzero, ih]
    simp [hlead, Nat.add_comm]

theorem ConsistentWith.setCursorPosition (h : s.ConsistentWith cs)
    {pos : Int}
    (hok : pos ≤ codePoints s.currentText) :
    ∃ s', s.setCursorPosition pos = some s' ∧ s'.Consistent := by
  rw [h.text, codePoints_encode] at hok
  unfold TextInputHandler.setCursorPosition
  split
  · refine ⟨_, ?_, cs, h.moveCaret (.end cs)⟩
    rw [h.text, UTF8Util.getLength_offset (.end cs)]
    rfl
  · obtain ⟨i, hi, hoff⟩ := UTF8Util.getBytePosFromUTF_offset cs pos.toNat (by omega)
    refine ⟨_, ?_, cs, h.moveCaret hoff⟩
    rw [h.text, hi]
    rfl

theorem ConsistentWith.getCopyText (h : s.ConsistentWith cs) : ∃ t, s.getCopyText = some t := by
  unfold TextInputHandler.getCopyText
  split
  · obtain ⟨k, hk⟩ := h.offset_min
    have hle : min s.currentTextPosition s.currentTextCopyPosition ≤ s.currentText.length :=
      h.text ▸ hk.le
    simp only [substr, if_pos hle]
    exact ⟨_, rfl⟩
  · exact ⟨_, rfl⟩

/-! ## Keeping the last character -/

theorem length_encode_concat (cs : List Char) (c : Char) :
    (encode (cs ++ [c])).length = (encode cs).length + (String.utf8EncodeChar c).length := by
  simp

theorem endsWithSize_length (cs : List Char) (c : Char) :
    endsWithSize (encode (cs ++ [c])) (String.utf8EncodeChar c).length = true := by
  obtain ⟨lead, hlead, hsize⟩ := UTF8Util.getCharByteSize_of_charBytes (charBytes_encodeChar c)
  have hlen := length_encode_concat cs c
  simp only [endsWithSize, Bool.and_eq_true, decide_eq_true_eq, Option.map_eq_some_iff]
  refine ⟨by omega, lead, ?_, hsize⟩
  rw [hlen, Nat.add_sub_cancel, encode_append, List.getElem?_append_right (Nat.le_refl _),
    Nat.sub_self, encode_cons, encode_nil, List.append_nil, hlead]

/-- In a valid text a first byte of two or more bytes belongs to a character of that size. -/
theorem endsWithSize_iff (cs : List Char) (c : Char) (n : Nat) (hn : 2 ≤ n) :
    endsWithSize (encode (cs ++ [c])) n = true ↔ (String.utf8EncodeChar c).length = n := by
  refine ⟨fun h => ?_, fun h => h ▸ endsWithSize_length cs c⟩
  have hlen := length_encode_concat cs c
  have hpos := encodeChar_length_pos c
  simp only [endsWithSize, Bool.and_eq_true, decide_eq_true_eq, Option.map_eq_some_iff] at h
  obtain ⟨hle, lead, hlead, hsize⟩ := h
  -- the byte is no continuation byte, so its place is an offset
  have hcont : isContinuation lead = false := by
    by_contra hc
    have hone := forall_byte (p := fun b => isContinuation b = true →
      UTF8Util.getCharByteSize b = 1) (by decide) lead (by simpa using hc)
    omega
  obtain ⟨k, before, after, heq, hi, rfl⟩ := exists_offset
    (Nat.sub_le (encode (cs ++ [c])).length n) fun b hb => by
      rw [hlead, Option.some.injEq] at hb
      exact hb ▸ hcont
  cases after with
  | nil =>
    rw [List.append_nil] at heq
    rw [← heq] at hi
    omega
  | cons d after =>
    obtain ⟨lead', hlead', hnext⟩ := UTF8Util.charAt_lead before d after
    rw [← heq, hi, charAt, if_neg (by omega), hlead, Option.some.injEq] at hlead'
    rw [← hlead', hsize, hi] at hnext
    -- that character ends with the text, so it is the last one
    have hall : (encode (before ++ [d])).length = (encode (before ++ d :: after)).length := by
      rw [← hnext, ← heq]
      omega
    have hafter : after = [] := by
      cases after with
      | nil => rfl
      | cons e after =>
        have hlt := UTF8Util.length_encode_lt (before ++ [d]) e after
        rw [List.append_assoc, List.singleton_append] at hlt
        omega
    subst hafter
    obtain ⟨rfl, hcd⟩ := List.append_inj' heq rfl
    cases hcd
    rw [hi] at hlen
    omega

/-- A last character of at most three bytes is kept. -/
theorem lastChar_spec (cs : List Char) (c : Char)
    (h : endsWithSize (encode (cs ++ [c])) 4 = false) :
    lastChar (encode (cs ++ [c])) = String.utf8EncodeChar c := by
  have hdrop : ∀ n, (String.utf8EncodeChar c).length = n →
      (encode (cs ++ [c])).drop ((encode (cs ++ [c])).length - n) = String.utf8EncodeChar c := by
    rintro n rfl
    rw [length_encode_concat, Nat.add_sub_cancel, encode_append, List.drop_left]
    simp
  have h4 : (String.utf8EncodeChar c).length ≠ 4 := by
    rw [Ne, ← endsWithSize_iff cs c 4 (by decide), h]
    simp
  rw [lastChar]
  split
  · next h3 => exact hdrop 3 ((endsWithSize_iff cs c 3 (by decide)).mp h3)
  · next h3 =>
    split
    · next h2 => exact hdrop 2 ((endsWithSize_iff cs c 2 (by decide)).mp h2)
    · next h2 =>
      rw [endsWithSize_iff cs c 3 (by decide)] at h3
      rw [endsWithSize_iff cs c 2 (by decide)] at h2
      have h1 : (String.utf8EncodeChar c).length = 1 := by
        rw [String.length_utf8EncodeChar] at h2 h3 h4 ⊢
        have := c.utf8Size_pos
        have := c.utf8Size_le_four
        omega
      rw [if_pos (h1 ▸ endsWithSize_length cs c), hdrop 1 h1]

theorem ConsistentWith.enable (h : s.ConsistentWith cs) (new : List Char) (multiline : Bool)
    (hok : s.keepOnce = true → endsWithSize s.currentText 4 = false) :
    ∃ s', s.enable (encode new) multiline = some s' ∧ s'.Consistent := by
  unfold TextInputHandler.enable
  simp only
  split
  · next hkeep =>
    split
    · next hne =>
      have hok := hok hkeep
      rw [h.text] at hne hok ⊢
      rcases List.eq_nil_or_concat cs with rfl | ⟨before, c, rfl⟩
      · simp at hne
      · rw [List.concat_eq_append] at hok ⊢
        rw [lastChar_spec before c hok,
          show encode new ++ String.utf8EncodeChar c = encode (new ++ [c]) by simp]
        exact update_consistent _ _
    · exact update_consistent _ _
  · exact update_consistent _ _

/-! ## Runs -/

/-- **A call that meets its condition** stays inside of the text and keeps the cursors
consistent. -/
theorem step_consistent (s : TextInputHandler) (call : Call) (h : s.Consistent)
    (hok : s.CallOk call) : ∃ s', step s call = some s' ∧ s'.Consistent := by
  obtain ⟨cs, h⟩ := h
  cases call with
  | enable text multiline => exact h.enable text.toList multiline hok
  | update text => exact update_consistent s text.toList
  | disable =>
    refine ⟨_, rfl, ?_⟩
    unfold disable
    split
    · exact ⟨cs, h⟩
    · exact ⟨[], rfl, .zero [], .zero []⟩
  | onTextInput text => exact h.onTextInput text.toList hok
  | onKeyPressed key action mods =>
    obtain ⟨s', hs, h'⟩ := h.onKeyPressed key action mods
    exact ⟨s', hs, cs, h'⟩
  | setCursorPosition pos => exact h.setCursorPosition hok
  | setKeepLastCharOnce => exact ⟨_, rfl, cs, h.text, h.caret, h.copy⟩
  | getCopyText =>
    obtain ⟨t, ht⟩ := h.getCopyText
    exact ⟨s, by rw [step, ht]; rfl, cs, h⟩

/-- In every run from the initial state whose calls meet their conditions, all accesses are inside
of the text, and the cursors are consistent. -/
theorem consistent_of_callOk (calls : List Call) (h : Runs.Meets step CallOk {} calls) :
    ∃ s, Runs.run step {} calls = some s ∧ s.Consistent :=
  Runs.run_inv step_consistent ⟨[], rfl, .zero [], .zero []⟩ h

/-- Typing a word after a word that is not ASCII, and deleting its last character. -/
theorem consistent_backspace :
    ∃ s, Runs.run step {} [.onTextInput "é a", .onTextInput "\x08"] = some s ∧ s.Consistent := by
  refine consistent_of_callOk _ (.cons ?_ rfl (.cons ?_ rfl trivial))
  · intro h
    exact absurd h (by decide)
  · intro _ _ n hn hcont
    have hn : n < 4 := hn
    have hlast := hcont 3 97 (by omega) (by decide) (by decide)
    exact absurd hlast (by decide)

/-- Deleting the word with Alt held puts the caret behind three characters, but there are two. -/
theorem not_consistent_deleteWord : ¬∀ calls, ∃ s, Runs.run step {} calls = some s ∧ s.Consistent := by
  intro h
  obtain ⟨s, hrun, cs, hs⟩ := h [.onTextInput "é ab", .onKeyPressed (.other 18) .PRESS KEY_MOD_ALT,
    .onTextInput "\x08"]
  have hpos : s.currentText = encode "é ".toList ∧ s.currentTextPositionUTF = 3 := by
    cases hrun
    decide
  have hlen := hs.caret.le_length
  rw [hpos.2] at hlen
  have hcs : cs.length = 2 := by
    rw [← codePoints_encode, ← hs.text, hpos.1]
    decide
  omega

end TextInputHandler

end McpeLauncher.TextInput
