import McpeLauncher.TextInput.Consistency

/-!
# Keeping the last character

`enable` looks for a first byte three, two and one bytes before the end of the old text. Of a last
character of four bytes it finds the last byte only.
-/

namespace McpeLauncher.TextInput
open Utf8

namespace TextInputHandler

/-- After `setKeepLastCharOnce`, `enable` puts the last character of the old text behind the new
one, reports that text if there was one, and clears the flag. -/
def KeepsLastChar (s : TextInputHandler) (old new : List Char) (multiline : Bool) : Prop :=
  ∃ s', ({ s with currentText := encode old }).setKeepLastCharOnce.enable (encode new) multiline =
      some s' ∧
    s'.currentText = encode (new ++ old.getLast?.toList) ∧
    s'.callbacks = s.callbacks ++
      (if old = [] then [] else [.textUpdate (encode (new ++ old.getLast?.toList))]) ∧
    s'.keepOnce = false

variable {s s' : TextInputHandler} {text : Bytes}

theorem update_eq_some (h : s.update text = some s') :
    s'.currentText = text ∧ s'.callbacks = s.callbacks ∧ s'.keepOnce = s.keepOnce := by
  obtain ⟨utf, -, hs⟩ := Option.bind_eq_some_iff.mp h
  cases hs
  exact ⟨rfl, rfl, rfl⟩

/-- Of a character of four bytes only the last byte is taken. -/
theorem lastChar_length_of_four (cs : List Char) (c : Char) (h : c.utf8Size = 4) :
    (lastChar (encode (cs ++ [c]))).length ≤ 1 := by
  have hsize : (String.utf8EncodeChar c).length = 4 := by rw [String.length_utf8EncodeChar, h]
  have h3 : ¬endsWithSize (encode (cs ++ [c])) 3 = true := by
    rw [endsWithSize_iff cs c 3 (by decide), hsize]
    decide
  have h2 : ¬endsWithSize (encode (cs ++ [c])) 2 = true := by
    rw [endsWithSize_iff cs c 2 (by decide), hsize]
    decide
  rw [lastChar, if_neg h3, if_neg h2]
  split
  · rw [List.length_drop]
    omega
  · exact Nat.zero_le 1

/-- The last character is taken whole if and only if it has at most three bytes. -/
theorem lastChar_eq_iff (cs : List Char) (c : Char) :
    lastChar (encode (cs ++ [c])) = String.utf8EncodeChar c ↔ c.utf8Size ≤ 3 := by
  constructor
  · intro h
    by_contra hlt
    have hfour : c.utf8Size = 4 := by
      have := c.utf8Size_le_four
      omega
    have hle := lastChar_length_of_four cs c hfour
    rw [h, String.length_utf8EncodeChar, hfour] at hle
    exact absurd hle (by decide)
  · intro h
    apply lastChar_spec
    rw [Bool.eq_false_iff]
    intro hfour
    rw [endsWithSize_iff cs c 4 (by decide), String.length_utf8EncodeChar] at hfour
    omega

/-- `enable` with the flag set, behind a text that is not empty. -/
theorem enable_concat (s : TextInputHandler) (before new : List Char) (c : Char)
    (multiline : Bool) :
    ({ s with currentText := encode (before ++ [c]) }).setKeepLastCharOnce.enable (encode new)
        multiline =
      update { s with
        currentText := encode (before ++ [c])
        enabled := true
        multiline := multiline
        enabledNo := s.enabledNo + 1
        keepOnce := false
        callbacks := s.callbacks ++
          [.textUpdate (encode new ++ lastChar (encode (before ++ [c])))] }
        (encode new ++ lastChar (encode (before ++ [c]))) := by
  have hne : (encode (before ++ [c])).length ≠ 0 := by
    have := encodeChar_length_pos c
    rw [length_encode_concat]
    omega
  exact if_pos hne

/-- The last character is kept if and only if it has at most three bytes. -/
theorem keepsLastChar_iff (s : TextInputHandler) (old new : List Char) (multiline : Bool) :
    s.KeepsLastChar old new multiline ↔ ∀ c ∈ old.getLast?, c.utf8Size ≤ 3 := by
  rcases List.eq_nil_or_concat old with rfl | ⟨before, c, rfl⟩
  · refine iff_of_true ?_ (by simp)
    obtain ⟨s', hs', -⟩ := update_consistent
      { s with
        currentText := []
        enabled := true
        multiline := multiline
        enabledNo := s.enabledNo + 1
        keepOnce := false } new
    obtain ⟨htext, hcallbacks, hkeep⟩ := update_eq_some hs'
    refine ⟨s', hs', ?_, ?_, hkeep⟩
    · rw [htext, List.getLast?_nil, Option.toList_none, List.append_nil]
    · rw [hcallbacks, if_pos rfl, List.append_nil]
  · rw [List.concat_eq_append, List.getLast?_concat]
    simp only [Option.mem_def, Option.some.injEq, forall_eq', KeepsLastChar, List.getLast?_concat,
      Option.toList_some, enable_concat]
    have hsplit : encode (new ++ [c]) = encode new ++ String.utf8EncodeChar c := by simp
    rw [← lastChar_eq_iff before c]
    constructor
    · rintro ⟨s', hs', htext, -⟩
      rw [(update_eq_some hs').1, hsplit] at htext
      exact List.append_cancel_left htext
    · intro hlast
      rw [hlast, ← hsplit]
      obtain ⟨s', hs', -⟩ := update_consistent
        { s with
          currentText := encode (before ++ [c])
          enabled := true
          multiline := multiline
          enabledNo := s.enabledNo + 1
          keepOnce := false
          callbacks := s.callbacks ++ [.textUpdate (encode (new ++ [c]))] } (new ++ [c])
      obtain ⟨htext, hcallbacks, hkeep⟩ := update_eq_some hs'
      refine ⟨s', hs', htext, ?_, hkeep⟩
      rw [hcallbacks, if_neg (by simp)]

/-- Behind an emoji only its last byte is kept, which is no character. -/
theorem not_keepsLastChar_emoji : ¬KeepsLastChar {} ['😀'] [] false := by
  rintro ⟨s', hs', htext, -⟩
  cases hs'
  exact absurd htext (by decide)

end TextInputHandler

end McpeLauncher.TextInput
