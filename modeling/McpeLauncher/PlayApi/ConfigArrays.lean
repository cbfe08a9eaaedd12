import McpeLauncher.PlayApi.ConfigRoundTrip

/-!
# Reading back arrays

`save` writes an array with one value a line. `load` strips each line of its indentation and takes
some lines for a comment, for no line at all or for the end of the array. A value that is not quoted
and is taken for one of these is lost, and with it the array: what the other lines are read as does
not make up for it.
-/

namespace McpeLauncher.PlayApi.Config

def tab : UInt8 := 9

/-- The line of a value; `more` is true if another one follows. -/
def itemLine (c : Config) (a : Bytes) (more : Bool) : Bytes :=
  List.replicate c.indent space ++
    (writeValue a true ++ if more && c.arrayAppendComma then [comma] else [])

/-- The lines of the values; behind a comma there are two line breaks. -/
def itemLines (c : Config) : List Bytes → Bytes
  | [] => []
  | a :: vals =>
    c.itemLine a (vals ≠ []) ++ newline ::
      ((if vals ≠ [] ∧ c.arrayAppendComma then [newline] else []) ++ itemLines c vals)

/-- A value that is read back: quoted, or not taken for indentation, and without any indentation not
for a comment and, if no comma stands behind it, neither for an empty line nor for the end. -/
def Survives (c : Config) (a : Bytes) (more : Bool) : Prop :=
  mustQuote a true ∨
    a.head? ≠ some tab ∧
      (c.indent ≠ 0 ∨
        a.head? ≠ some semicolon ∧
          (more = true ∧ c.arrayAppendComma = true ∨ a ≠ [] ∧ a ≠ [closeBracket]))
  deriving Decidable

/-- Each value of the array is read back. -/
def ArraySafe (c : Config) : List Bytes → Prop
  | [] => True
  | a :: vals => c.Survives a (vals ≠ []) ∧ ArraySafe c vals

/-! ## Lines of arrays -/

section Lines

variable {c : Config} {a s t rest : Bytes} {vals acc : List Bytes}

theorem writeArray_eq (c : Config) (vals : List Bytes) (s : Bytes) :
    writeArray c true vals ++ newline :: s = newline :: (c.itemLines vals ++ s) ∧
      writeArray c false vals ++ newline :: s =
        (if vals ≠ [] ∧ c.arrayAppendComma then [comma, newline] else []) ++
          newline :: (c.itemLines vals ++ s) := by
  induction vals with
  | nil => exact ⟨rfl, rfl⟩
  | cons a vals ih =>
    have hitem : List.replicate c.indent space ++ writeValue a true ++ writeArray c false vals ++
        newline :: s = c.itemLines (a :: vals) ++ s := by
      rw [List.append_assoc, ih.2, itemLines, itemLine]
      by_cases hcomma : vals ≠ [] ∧ c.arrayAppendComma
      · simp [hcomma]
      · have hfalse : (decide (vals ≠ []) && c.arrayAppendComma) = false := by
          simpa [not_and] using hcomma
        rw [if_neg hcomma, if_neg hcomma, hfalse]
        simp
    constructor
    · simp [writeArray, ← hitem]
    · rw [writeArray, ← hitem]
      cases c.arrayAppendComma <;> simp

/-- The entry of an array, line by line. -/
theorem writeEntry_array (c : Config) (key : Bytes) (vals : List Bytes) (rest : Bytes) :
    c.writeEntry (key, .array vals) ++ rest =
      escapeKey key ++ separator ++ [bracket] ++ newline ::
        (c.itemLines vals ++ closeBracket :: newline :: rest) := by
  have h := (writeArray_eq c vals (closeBracket :: newline :: rest)).1
  simp only [writeEntry, List.append_assoc, List.cons_append, List.nil_append] at h ⊢
  rw [h]

theorem Wrapped.concat (h : Wrapped t) {b : UInt8} (hnewline : b ≠ newline)
    (hback : b ≠ backslash) : Wrapped (t ++ [b]) := by
  induction h with
  | @last s hs _ =>
    apply Wrapped.last
    · rw [List.mem_append, not_or]
      exact ⟨hs, fun hb => hnewline (List.mem_singleton.mp hb).symm⟩
    · rw [List.getLast?_concat]
      exact fun hb => hback (Option.some.inj hb)
  | @cont s t hs _ _ ih =>
    rw [List.append_assoc, List.cons_append, List.cons_append]
    exact .cont hs (by simp) ih

theorem newline_not_mem_indent (c : Config) : newline ∉ List.replicate c.indent space :=
  fun h => absurd (List.eq_of_mem_replicate h) (by decide)

theorem wrapped_indent (c : Config) (a : Bytes) :
    Wrapped (List.replicate c.indent space ++ writeValue a true) := by
  rw [writeValue]
  split
  · have hquote : newline ∉ List.replicate c.indent space ++ [quote] := by
      rw [List.mem_append, not_or]
      exact ⟨newline_not_mem_indent c, by decide⟩
    simpa using wrapped_escapeVal hquote a
  · rename_i hq
    simp only [mustQuote, Bool.true_and, Bool.or_eq_true, decide_eq_true_eq,
      List.contains_iff_mem, not_or] at hq
    apply Wrapped.last
    · rw [List.mem_append, not_or]
      exact ⟨newline_not_mem_indent c, hq.1.2⟩
    · cases a with
      | nil =>
        rw [List.append_nil, List.getLast?_replicate]
        split
        · simp
        · decide
      | cons b a =>
        rw [List.getLast?_append_of_ne_nil _ (List.cons_ne_nil _ _)]
        exact hq.1.1.2

theorem wrapped_itemLine (c : Config) (a : Bytes) (more : Bool) : Wrapped (c.itemLine a more) := by
  rw [itemLine, ← List.append_assoc]
  split
  · exact (wrapped_indent c a).concat (by decide) (by decide)
  · rw [List.append_nil]
    exact wrapped_indent c a

theorem readLine_newline (s : Bytes) : readLine (getlines (newline :: s)) = readLine (getlines s) := by
  rw [getlines, if_pos rfl, readLine, if_pos (.inl rfl)]

/-- A line that `read_line` passes over. -/
def Skipped (line : Bytes) : Prop := line = [] ∨ line.head? = some semicolon
  deriving Decidable

theorem head_writeValue (h : mustQuote a true = true) : (writeValue a true).head? = some quote := by
  rw [writeValue, if_pos h]
  rfl

theorem writeValue_of_not (h : ¬mustQuote a true = true) : writeValue a true = a := if_neg h

/-- A comment that is written as a value has one line. -/
theorem newline_not_mem_of_skipped {more : Bool} (h : Skipped (c.itemLine a more)) :
    newline ∉ c.itemLine a more := by
  have hplain : ¬mustQuote a true = true := by
    intro hq
    have hhead := head_writeValue hq
    cases hv : writeValue a true with
    | nil =>
      rw [hv] at hhead
      cases hhead
    | cons b v =>
      rw [hv] at hhead
      cases hhead
      rcases h with h | h
      · simp [itemLine, hv] at h
      · cases hi : c.indent with
        | zero =>
          simp only [itemLine, hi, hv] at h
          exact absurd (Option.some.inj h) (by decide)
        | succ n =>
          simp only [itemLine, hi] at h
          exact absurd (Option.some.inj h) (by decide)
  have hnewline : newline ∉ a := by
    simp only [mustQuote, Bool.or_eq_true, List.contains_iff_mem, not_or] at hplain
    exact hplain.1.2
  rw [itemLine, writeValue_of_not hplain, List.mem_append, List.mem_append, not_or, not_or]
  refine ⟨newline_not_mem_indent c, hnewline, ?_⟩
  split
  · decide
  · exact List.not_mem_nil

/-- What `read_line` makes of the line of a value. -/
theorem readLine_itemLine (c : Config) (a : Bytes) (more : Bool) (rest : Bytes) :
    readLine (getlines (c.itemLine a more ++ newline :: rest)) =
      if Skipped (c.itemLine a more) then readLine (getlines rest)
      else .ok (some (c.itemLine a more, getlines rest)) := by
  split
  · rename_i hskip
    rw [getlines_append (newline_not_mem_of_skipped hskip)]
    exact if_pos hskip
  · rename_i hskip
    obtain ⟨hne, hhead⟩ := not_or.mp hskip
    obtain ⟨b, s, hs⟩ := List.exists_cons_of_ne_nil hne
    apply (wrapped_itemLine c a more).readLine (b := b)
    · rw [hs]
      rfl
    · rintro rfl
      rw [hs] at hhead
      exact hhead rfl

/-- A comma at the end of a value is quoted. -/
theorem getLast?_writeValue_ne (a : Bytes) : (writeValue a true).getLast? ≠ some comma := by
  rw [writeValue]
  split
  · rw [← List.cons_append, List.getLast?_concat]
    decide
  · rename_i hq
    simp only [mustQuote, Bool.true_and, Bool.or_eq_true, decide_eq_true_eq, not_or] at hq
    exact hq.2

theorem getLast?_indented_ne (n : Nat) {w : Bytes} (h : w.getLast? ≠ some comma) :
    (List.replicate n space ++ w).getLast? ≠ some comma := by
  cases w with
  | nil =>
    rw [List.append_nil, List.getLast?_replicate]
    split
    · simp
    · decide
  | cons b w => rwa [List.getLast?_append_of_ne_nil _ (List.cons_ne_nil _ _)]

/-- The blanks in front of a value, with the indentation. -/
theorem length_takeWhile_indented (n : Nat) (w : Bytes) {tail : Bytes}
    (htail : tail.takeWhile isBlank = []) :
    ((List.replicate n space ++ (w ++ tail)).takeWhile isBlank).length =
      n + (w.takeWhile isBlank).length := by
  rw [List.takeWhile_append_of_pos fun b hb => by rw [List.eq_of_mem_replicate hb]; rfl,
    List.length_append, List.length_replicate, List.takeWhile_append, htail, List.append_nil]
  split
  · rename_i hall
    rw [hall]
  · rfl

theorem drop_indented (n : Nat) (w : Bytes) :
    (List.replicate n space ++ w).drop (n + (w.takeWhile isBlank).length) =
      w.dropWhile isBlank := by
  have hw : (w.takeWhile isBlank ++ w.dropWhile isBlank).drop (w.takeWhile isBlank).length =
      w.dropWhile isBlank := List.drop_left
  rw [List.takeWhile_append_dropWhile] at hw
  rw [← List.drop_drop, List.drop_left' List.length_replicate, hw]

/-- The indentation, the blanks in front of a value that is not quoted and the comma are taken off. -/
theorem arrayItem_itemLine (c : Config) (a : Bytes) (more : Bool) :
    arrayItem (c.itemLine a more) = unescapeValue ((writeValue a true).dropWhile isBlank) := by
  have hlast := getLast?_indented_ne c.indent (getLast?_writeValue_ne a)
  have hcomma : [comma].takeWhile isBlank = [] := rfl
  simp only [itemLine, arrayItem]
  split
  · rw [length_takeWhile_indented _ _ hcomma, ← List.append_assoc, List.getLast?_concat, if_pos rfl,
      List.dropLast_concat, drop_indented]
  · rw [length_takeWhile_indented _ _ List.takeWhile_nil, List.append_nil, if_neg hlast,
      drop_indented]

end Lines

/-! ## What becomes of a value -/

section Values

variable {c : Config} {a : Bytes} {more : Bool}

theorem Survives.arrayItem (h : c.Survives a more) : arrayItem (c.itemLine a more) = .ok a := by
  rw [arrayItem_itemLine]
  have hhead : (writeValue a true).dropWhile isBlank = writeValue a true := by
    by_cases hq : mustQuote a true = true
    · rw [writeValue, if_pos hq]
      rfl
    · rw [writeValue_of_not hq]
      cases a with
      | nil => rfl
      | cons b a =>
        have htab : b ≠ tab := fun hb => (h.resolve_left hq).1 (congrArg some hb)
        have hspace : b ≠ space := by
          rintro rfl
          exact hq rfl
        have hblank : isBlank b = false := by
          simpa [isBlank] using ⟨hspace, htab⟩
        rw [List.dropWhile_cons_of_neg (by simp [hblank])]
  rw [hhead, unescapeValue_writeValue]

/-- The line of a value that needs no indentation begins with the value. -/
theorem itemLine_of_indent (hindent : c.indent = 0) (a : Bytes) (more : Bool) :
    c.itemLine a more = writeValue a true ++ if more && c.arrayAppendComma then [comma] else [] := by
  rw [itemLine, hindent]
  rfl

theorem head_itemLine_of_indent (hindent : c.indent ≠ 0) (a : Bytes) (more : Bool) :
    (c.itemLine a more).head? = some space := by
  obtain ⟨n, hn⟩ := Nat.exists_eq_succ_of_ne_zero hindent
  rw [itemLine, hn]
  rfl

theorem Survives.head (h : c.Survives a more) :
    ¬Skipped (c.itemLine a more) ∧ c.itemLine a more ≠ [closeBracket] := by
  by_cases hindent : c.indent = 0
  · rw [itemLine_of_indent hindent, Skipped]
    by_cases hq : mustQuote a true = true
    · rw [writeValue, if_pos hq]
      simp only [List.cons_append, List.head?_cons, Option.some.injEq]
      refine ⟨?_, fun h => absurd (List.cons.inj h).1 (by decide)⟩
      rintro (h | h)
      · cases h
      · exact absurd h (by decide)
    · rw [writeValue_of_not hq]
      obtain ⟨-, hplain⟩ := h.resolve_left hq
      obtain ⟨hsemicolon, hrest⟩ := hplain.resolve_left (not_not.mpr hindent)
      rcases hrest with ⟨hmore, hcomma⟩ | ⟨hne, hclose⟩
      · rw [hmore, hcomma]
        cases a with
        | nil => simp [comma, semicolon, closeBracket]
        | cons b a =>
          simp only [Bool.and_self, if_true, List.cons_append, List.head?_cons]
          exact ⟨not_or.mpr ⟨List.cons_ne_nil _ _, hsemicolon⟩, by simp⟩
      · obtain ⟨b, a, rfl⟩ := List.exists_cons_of_ne_nil hne
        refine ⟨not_or.mpr ⟨List.cons_ne_nil _ _, hsemicolon⟩, fun h => ?_⟩
        split at h
        · simp at h
        · rw [List.append_nil] at h
          exact hclose h
  · have hhead := head_itemLine_of_indent hindent a more
    refine ⟨?_, fun h => ?_⟩
    · rintro (h | h)
      · rw [h] at hhead
        cases hhead
      · exact absurd (Option.some.inj (hhead.symm.trans h)) (by decide)
    · rw [h] at hhead
      exact absurd (Option.some.inj hhead) (by decide)

theorem length_dropEscapes_le (special : UInt8 → Bool) (s : Bytes) :
    (dropEscapes special s).length ≤ s.length := by
  induction s with
  | nil => exact Nat.le_refl _
  | cons b s ih =>
    rw [dropEscapes]
    split
    · exact Nat.le_succ_of_le ih
    · exact Nat.succ_le_succ ih

theorem length_halveBackslashes_le (s : Bytes) : (halveBackslashes s).length ≤ s.length := by
  fun_induction halveBackslashes s with
  | case1 => exact Nat.le_refl _
  | case2 => exact Nat.le_refl _
  | case3 a b s h ih => exact Nat.succ_le_succ (Nat.le_succ_of_le ih)
  | case4 a b s h ih => exact Nat.succ_le_succ ih

theorem length_unescapeValue_le {s t : Bytes} (h : unescapeValue s = .ok t) :
    t.length ≤ s.length := by
  unfold unescapeValue at h
  split at h
  · split at h
    · cases h
    · cases h
      refine (length_halveBackslashes_le _).trans ((length_dropEscapes_le _ _).trans ?_)
      rw [List.length_take, List.length_drop]
      omega
  · cases h
    exact Nat.le_refl _

/-- A value that is not read back is passed over, taken for the end, or loses its first blank. -/
theorem of_not_survives (h : ¬c.Survives a more) :
    Skipped (c.itemLine a more) ∨ c.itemLine a more = [closeBracket] ∨
      ∀ v, arrayItem (c.itemLine a more) = .ok v → v.length < a.length := by
  simp only [Survives, not_or, not_and_or, not_not] at h
  obtain ⟨hq, htab | ⟨hindent, hplain⟩⟩ := h
  · refine .inr (.inr fun v hv => ?_)
    rw [arrayItem_itemLine, writeValue_of_not hq] at hv
    cases a with
    | nil => cases htab
    | cons b a =>
      cases htab
      have hdrop : (tab :: a).dropWhile isBlank = a.dropWhile isBlank := rfl
      rw [hdrop] at hv
      exact Nat.lt_succ_of_le ((length_unescapeValue_le hv).trans (List.length_dropWhile_le ..))
  · rw [itemLine_of_indent hindent, writeValue_of_not hq]
    rcases hplain with hsemicolon | ⟨hcomma, hplain⟩
    · obtain ⟨a, rfl⟩ : ∃ a', a = semicolon :: a' := by
        cases a with
        | nil => cases hsemicolon
        | cons b a =>
          cases hsemicolon
          exact ⟨a, rfl⟩
      exact .inl (.inr rfl)
    · have hfalse : (more && c.arrayAppendComma) = false := by
        rcases hcomma with h | h <;> simp [h]
      simp only [hfalse, Bool.false_eq_true, if_false, List.append_nil]
      rcases hplain with hnil | hclose
      · exact .inl (.inl hnil)
      · exact .inr (.inl hclose)

end Values

/-! ## Reading arrays -/

section Reading

variable {c : Config} {vals acc : List Bytes} {key rest : Bytes}

theorem readArray_eq (ls acc : List Bytes) :
    readArray ls acc =
      match readLine ls with
      | .error x => .error x
      | .ok none => .error (.runtimeError "An array was opened, but was not closed.")
      | .ok (some (line, rest)) =>
        if line = [closeBracket] then .ok (acc, rest)
        else
          match arrayItem line with
          | .error x => .error x
          | .ok val => readArray rest (acc ++ [val]) := by
  rw [readArray]
  split
  · next h => simp only [h]
  · next h => simp only [h]
  · next line rest h => cases hitem : arrayItem line <;> simp only [h, hitem]

/-- The line break behind a comma is passed over. -/
theorem readArray_gap (gap : Prop) [Decidable gap] (s : Bytes) (acc : List Bytes) :
    readArray (getlines ((if gap then [newline] else []) ++ s)) acc = readArray (getlines s) acc := by
  split
  · rw [List.cons_append, List.nil_append, readArray_eq, readLine_newline, ← readArray_eq]
  · rfl

theorem loadLines_gap (gap : Prop) [Decidable gap] (s : Bytes) (c : Config) :
    loadLines (getlines ((if gap then [newline] else []) ++ s)) c = loadLines (getlines s) c := by
  split
  · rw [List.cons_append, List.nil_append, loadLines_eq, readLine_newline, ← loadLines_eq]
  · rfl

/-- The lines of an array, its end, and what follows it. -/
def arrayText (c : Config) (vals : List Bytes) (rest : Bytes) : Bytes :=
  c.itemLines vals ++ closeBracket :: newline :: rest

theorem readLine_close (rest : Bytes) :
    readLine (getlines (closeBracket :: newline :: rest)) =
      .ok (some ([closeBracket], getlines rest)) :=
  (Wrapped.last (by decide) (by decide)).readLine (t := [closeBracket]) rfl (by decide) rest

theorem readArray_nil (c : Config) (acc : List Bytes) (rest : Bytes) :
    readArray (getlines (c.arrayText [] rest)) acc = .ok (acc, getlines rest) := by
  rw [readArray_eq, arrayText, itemLines, List.nil_append, readLine_close]
  exact if_pos rfl

theorem arrayText_cons (c : Config) (a : Bytes) (vals : List Bytes) (rest : Bytes) :
    c.arrayText (a :: vals) rest = c.itemLine a (vals ≠ []) ++ newline ::
      ((if vals ≠ [] ∧ c.arrayAppendComma then [newline] else []) ++ c.arrayText vals rest) := by
  simp [arrayText, itemLines]

/-- The next line of an array. -/
theorem readArray_cons (c : Config) (a : Bytes) (vals acc : List Bytes) (rest : Bytes) :
    readArray (getlines (c.arrayText (a :: vals) rest)) acc =
      if Skipped (c.itemLine a (vals ≠ [])) then readArray (getlines (c.arrayText vals rest)) acc
      else if c.itemLine a (vals ≠ []) = [closeBracket] then
        .ok (acc, getlines ((if vals ≠ [] ∧ c.arrayAppendComma then [newline] else []) ++
          c.arrayText vals rest))
      else
        match arrayItem (c.itemLine a (vals ≠ [])) with
        | .error x => .error x
        | .ok val => readArray (getlines (c.arrayText vals rest)) (acc ++ [val]) := by
  rw [arrayText_cons, readArray_eq, readLine_itemLine]
  by_cases hskip : Skipped (c.itemLine a (vals ≠ []))
  · rw [if_pos hskip, if_pos hskip, ← readArray_eq, readArray_gap]
  · rw [if_neg hskip, if_neg hskip]
    simp only [readArray_gap]

/-- An array whose values are all read back. -/
theorem readArray_of_safe (hsafe : c.ArraySafe vals) (acc : List Bytes) (rest : Bytes) :
    readArray (getlines (c.arrayText vals rest)) acc = .ok (acc ++ vals, getlines rest) := by
  induction vals generalizing acc with
  | nil => rw [readArray_nil, List.append_nil]
  | cons a vals ih =>
    obtain ⟨ha, hsafe⟩ := hsafe
    rw [readArray_cons, if_neg ha.head.1, if_neg ha.head.2, ha.arrayItem]
    exact (ih hsafe _).trans (by rw [List.append_assoc]; rfl)

/-- What is loaded from the entry of an array. -/
theorem loadLines_array (c c' : Config) (hkey : newline ∉ key) (vals : List Bytes) (rest : Bytes) :
    loadLines (getlines (c.writeEntry (key, .array vals) ++ rest)) c' =
      closeArray key c' (readArray (getlines (c.arrayText vals rest)) []) := by
  obtain ⟨b, hhead, hsemicolon⟩ := head_entry key [bracket]
  have hwrapped : Wrapped (escapeKey key ++ separator ++ [bracket]) := by
    apply Wrapped.last
    · simp only [List.mem_append, not_or]
      exact ⟨⟨newline_not_mem_escape hkey _, by decide⟩, by decide⟩
    · rw [List.getLast?_concat]
      decide
  rw [writeEntry_array, loadLines_eq, hwrapped.readLine hhead hsemicolon]
  simp only [findSeparator_escapeKey, if_true, unescapeKey_escapeKey]
  rfl

theorem readsBack_array (hkey : newline ∉ key) (hsafe : c.ArraySafe vals) :
    c.ReadsBack (key, .array vals) := by
  intro c' rest
  rw [loadLines_array c c' hkey, readArray_of_safe hsafe]
  rfl

end Reading

/-! ## Arrays that are lost -/

section Lost

variable {c c' : Config} {key key' rest : Bytes} {goal vals acc : List Bytes}

/-- The key does not have the array. -/
def Lacks (c' : Config) (key : Bytes) (goal : List Bytes) : Prop :=
  c'.entries[key]? ≠ some (.array goal)

/-- The loading fails, or goes on with the rest from a state in which the key lacks the array. -/
def Loses (key : Bytes) (goal : List Bytes) (rest : Bytes) (r : Except ConfigError Config) : Prop :=
  (∃ x, r = .error x) ∨ ∃ c', Lacks c' key goal ∧ r = loadLines (getlines rest) c'

/-- Whatever up to `n` other values are read, it is not the array. -/
def Dead (goal : List Bytes) (n : Nat) (acc : List Bytes) : Prop :=
  ∀ t : List Bytes, t.length ≤ n → acc ++ t ≠ goal

theorem dead_of_length (h : acc.length + n < goal.length) : Dead goal n acc := by
  rintro t ht rfl
  rw [List.length_append] at h
  omega

theorem Dead.anti (h : Dead goal n acc) (hmn : m ≤ n) : Dead goal m acc :=
  fun t ht => h t (ht.trans hmn)

theorem Dead.concat (h : Dead goal (n + 1) acc) (v : Bytes) : Dead goal n (acc ++ [v]) := by
  intro t ht
  rw [List.append_assoc]
  exact h (v :: t) (Nat.succ_le_succ ht)

theorem Lacks.set (h : key' = key ∨ Lacks c' key goal) {e : ConfigEntry}
    (he : key' = key → e ≠ .array goal) : Lacks (c'.set key' e) key goal := by
  rw [Lacks, Config.set, Std.TreeMap.getElem?_insert]
  split
  · next heq =>
    exact fun hsome => he (Std.LawfulEqOrd.eq_of_compare heq) (Option.some.inj hsome)
  · next hne =>
    exact h.resolve_left fun heq => hne (heq ▸ Std.ReflCmp.compare_self)

theorem Lacks.setArray (h : key' = key ∨ Lacks c' key goal) (hdead : Dead goal n acc) :
    Lacks (c'.set key' (.array acc)) key goal := by
  refine Lacks.set h fun _ he => hdead [] (Nat.zero_le n) ?_
  rw [List.append_nil]
  exact ConfigEntry.array.inj he

/-- The lines of an array, wherever the reading of them begins: outside of any array, or in an array
of another key or one that is not the right one any more. -/
structure LosesLines (c : Config) (key : Bytes) (goal : List Bytes) (rest : Bytes)
    (vals : List Bytes) : Prop where
  outside : ∀ {c'}, Lacks c' key goal →
    Loses key goal rest (loadLines (getlines (c.arrayText vals rest)) c')
  inside : ∀ {c' key' acc}, (key' = key ∨ Lacks c' key goal) → Dead goal vals.length acc →
    Loses key goal rest (closeArray key' c' (readArray (getlines (c.arrayText vals rest)) acc))

theorem LosesLines.nil (c : Config) (key : Bytes) (goal : List Bytes) (rest : Bytes) :
    LosesLines c key goal rest [] := by
  constructor
  · intro c' hlacks
    refine .inr ⟨c', hlacks, ?_⟩
    rw [loadLines_eq, arrayText, itemLines, List.nil_append, readLine_close]
    rfl
  · intro c' key' acc hlacks hdead
    rw [readArray_nil]
    exact .inr ⟨_, Lacks.setArray hlacks hdead, rfl⟩

theorem LosesLines.outside_cons (h : LosesLines c key goal rest vals)
    (hlen : vals.length < goal.length) (a : Bytes) (hlacks : Lacks c' key goal) :
    Loses key goal rest (loadLines (getlines (c.arrayText (a :: vals) rest)) c') := by
  rw [arrayText_cons, loadLines_eq, readLine_itemLine]
  by_cases hskip : Skipped (c.itemLine a (vals ≠ []))
  · rw [if_pos hskip, ← loadLines_eq, loadLines_gap]
    exact h.outside hlacks
  rw [if_neg hskip]
  dsimp only
  split
  · rw [loadLines_gap]
    exact h.outside hlacks
  · next key' val _ =>
    split
    · -- a line of the array opens another one
      rw [readArray_gap]
      exact h.inside (.inr hlacks) (dead_of_length (by simpa using hlen))
    · cases unescapeValue val with
      | error x => exact .inl ⟨x, rfl⟩
      | ok t =>
        dsimp only
        rw [loadLines_gap]
        exact h.outside (Lacks.set (.inr hlacks) fun _ => by simp)

theorem LosesLines.inside_cons (h : LosesLines c key goal rest vals) (a : Bytes)
    (hlacks : key' = key ∨ Lacks c' key goal) (hdead : Dead goal (vals.length + 1) acc) :
    Loses key goal rest
      (closeArray key' c' (readArray (getlines (c.arrayText (a :: vals) rest)) acc)) := by
  rw [readArray_cons]
  split
  · exact h.inside hlacks (hdead.anti (Nat.le_succ _))
  split
  · rw [closeArray, loadLines_gap]
    exact h.outside (Lacks.setArray hlacks hdead)
  · cases arrayItem (c.itemLine a (vals ≠ [])) with
    | error x => exact .inl ⟨x, rfl⟩
    | ok v => exact h.inside hlacks (hdead.concat v)

theorem losesLines (c : Config) (key : Bytes) (goal : List Bytes) (rest : Bytes)
    (hlen : vals.length ≤ goal.length) : LosesLines c key goal rest vals := by
  induction vals with
  | nil => exact .nil c key goal rest
  | cons a vals ih =>
    have h := ih (Nat.le_of_succ_le hlen)
    exact ⟨h.outside_cons hlen a, h.inside_cons a⟩

/-- An array with a value that is not read back: the ones in front of it were read. -/
theorem loses_of_not_safe (c c' : Config) (key rest : Bytes) (hsafe : ¬c.ArraySafe vals) :
    ∀ acc, goal = acc ++ vals →
      Loses key goal rest (closeArray key c' (readArray (getlines (c.arrayText vals rest)) acc)) := by
  induction vals with
  | nil => exact absurd trivial hsafe
  | cons a vals ih =>
    rintro acc rfl
    have hlen : vals.length ≤ (acc ++ a :: vals).length := by simp; omega
    have hlines := losesLines c key (acc ++ a :: vals) rest hlen
    have hdead : Dead (acc ++ a :: vals) vals.length acc := dead_of_length (by simp)
    rw [readArray_cons]
    by_cases ha : c.Survives a (vals ≠ [])
    · have hvals : ¬c.ArraySafe vals := fun h => hsafe ⟨ha, h⟩
      rw [if_neg ha.head.1, if_neg ha.head.2, ha.arrayItem]
      exact ih hvals (acc ++ [a]) (by rw [List.append_assoc]; rfl)
    split
    · exact hlines.inside (.inl rfl) hdead
    · rename_i hskip
      split
      · rw [closeArray, loadLines_gap]
        exact hlines.outside (Lacks.setArray (.inl rfl) hdead)
      · rename_i hclose
        have hshort := ((of_not_survives ha).resolve_left hskip).resolve_left hclose
        cases hitem : arrayItem (c.itemLine a (vals ≠ [])) with
        | error x => exact .inl ⟨x, rfl⟩
        | ok v =>
          refine hlines.inside (.inl rfl) fun t _ he => ?_
          rw [List.append_assoc] at he
          have hv : v = a := (List.cons.inj (List.append_cancel_left he)).1
          exact absurd (hshort v hitem) (hv ▸ Nat.lt_irrefl _)

/-- Any entries: the loading fails or goes on behind them. -/
theorem loadLines_entries (c c' : Config) (entries : List (Bytes × ConfigEntry))
    (hkeys : ∀ e ∈ entries, newline ∉ e.1) (rest : Bytes) :
    (∃ x, loadLines (getlines (entries.flatMap c.writeEntry ++ rest)) c' = .error x) ∨
      ∃ c'', loadLines (getlines (entries.flatMap c.writeEntry ++ rest)) c' =
        loadLines (getlines rest) c'' := by
  induction entries generalizing c' with
  | nil => exact .inr ⟨c', rfl⟩
  | cons e entries ih =>
    have ih := fun c' => ih c' fun e' he => hkeys e' (.tail e he)
    rw [List.flatMap_cons, List.append_assoc]
    obtain ⟨key, t | vals⟩ := e
    · rw [readsBack_text c (hkeys _ (.head _)) t]
      exact ih _
    · rw [loadLines_array c c' (hkeys _ (.head _))]
      have hdead : Dead ([] :: vals) vals.length [] := dead_of_length (by simp)
      have hlines := losesLines c key ([] :: vals) (entries.flatMap c.writeEntry ++ rest)
        (Nat.le_succ vals.length)
      rcases hlines.inside (.inl rfl) hdead with hfails | ⟨c'', -, hgoes⟩
      · exact .inl hfails
      · rw [hgoes]
        exact ih c''

end Lost

/-! ## Files with arrays -/

section Files

variable {c c₀ : Config}

/-- Each array is as it was, and so are the entries after it. -/
def Restores (c c' : Config) : Prop :=
  ∀ (key : Bytes) (vals : List Bytes), c.entries[key]? = some (.array vals) →
    c'.entries[key]? = some (.array vals) ∧
      ∀ key' : Bytes, compare key key' = .lt → c'.entries[key']? = c.entries[key']?

theorem exists_last {α : Type _} {p : α → Prop} {l : List α} (h : ∃ a ∈ l, p a) :
    ∃ l₁ a l₂, l = l₁ ++ a :: l₂ ∧ p a ∧ ∀ b ∈ l₂, ¬p b := by
  induction l with
  | nil => simp at h
  | cons a l ih =>
    by_cases hl : ∃ b ∈ l, p b
    · obtain ⟨l₁, b, l₂, rfl, hb, hrest⟩ := ih hl
      exact ⟨a :: l₁, b, l₂, rfl, hb, hrest⟩
    · obtain ⟨b, hb, hpb⟩ := h
      obtain rfl | hb := List.mem_cons.mp hb
      · exact ⟨[], b, l, rfl, hpb, fun b hb hpb => hl ⟨b, hb, hpb⟩⟩
      · exact absurd ⟨b, hb, hpb⟩ hl

/-- The last array with a value that is not read back is not restored. -/
theorem not_restored_of_not_safe (c₀ : Config)
    (hkeys : ∀ e ∈ c.entries.toList, newline ∉ e.1)
    (h : ∃ e ∈ c.entries.toList, ∃ vals, e.2 = .array vals ∧ ¬c.ArraySafe vals) :
    ∃ (key : Bytes) (vals : List Bytes), c.entries[key]? = some (.array vals) ∧
      ∀ c', load c₀ (save c) = .ok c' → c'.entries[key]? ≠ some (.array vals) := by
  obtain ⟨before, ⟨key, e⟩, after, hsplit, ⟨vals, rfl, hsafe⟩, hafter⟩ := exists_last h
  have hmem : (key, ConfigEntry.array vals) ∈ c.entries.toList := by simp [hsplit]
  refine ⟨key, vals, Std.TreeMap.mem_toList_iff_getElem?_eq_some.mp hmem, fun c' hload => ?_⟩
  have hkeys' : ∀ e ∈ after, newline ∉ e.1 := fun e he => hkeys e (by simp [hsplit, he])
  have hreads : ∀ e ∈ after, c.ReadsBack e := by
    rintro ⟨key', t | vals'⟩ he
    · exact readsBack_text c (hkeys' _ he) t
    · refine readsBack_array (hkeys' _ he) ?_
      by_contra hbad
      exact hafter _ he ⟨vals', rfl, hbad⟩
  have hne : ∀ e ∈ after, e.1 ≠ key := by
    rintro e he rfl
    have hdistinct := Std.TreeMap.distinct_keys_toList (t := c.entries)
    rw [hsplit, List.pairwise_append, List.pairwise_cons] at hdistinct
    exact hdistinct.2.1.1 e he Std.ReflCmp.compare_self
  rw [load, save, hsplit, List.flatMap_append, List.flatMap_cons] at hload
  rcases loadLines_entries c c₀ before (fun e he => hkeys e (by simp [hsplit, he])) _ with
    ⟨x, hx⟩ | ⟨c₁, h₁⟩
  · rw [hx] at hload
    cases hload
  rw [h₁, loadLines_array c c₁ (hkeys _ hmem)] at hload
  rcases loses_of_not_safe c c₁ key _ hsafe [] rfl with ⟨x, hx⟩ | ⟨c₂, hlacks, h₂⟩
  · rw [hx] at hload
    cases hload
  have hrest := loadLines_flatMap c c₂ after hreads []
  rw [List.append_nil, getlines, loadLines_nil] at hrest
  rw [h₂, hrest] at hload
  cases hload
  rw [entries_foldl_set Prod.fst Prod.snd, TreeMaps.getElem?_foldl_insert_of_ne hne]
  exact hlacks

/-- **Exactly when saved arrays are loaded**: each value of each array is read back. -/
theorem load_save_arrays_iff (c c₀ : Config) (hempty : c₀.entries = ∅)
    (hkeys : ∀ (key : Bytes) (e : ConfigEntry), c.entries[key]? = some e → newline ∉ key) :
    (∃ c', load c₀ (save c) = .ok c' ∧ Restores c c') ↔
      ∀ (key : Bytes) (vals : List Bytes), c.entries[key]? = some (.array vals) →
        c.ArraySafe vals := by
  have hkeys' : ∀ e ∈ c.entries.toList, newline ∉ e.1 :=
    fun e he => hkeys e.1 e.2 (Std.TreeMap.mem_toList_iff_getElem?_eq_some.mp he)
  constructor
  · rintro ⟨c', hload, hrestores⟩ key vals hkey
    by_contra hsafe
    have hmem := Std.TreeMap.mem_toList_iff_getElem?_eq_some.mpr hkey
    obtain ⟨key', vals', hkey', hlost⟩ :=
      not_restored_of_not_safe c₀ hkeys' ⟨_, hmem, vals, rfl, hsafe⟩
    exact hlost c' hload (hrestores key' vals' hkey').1
  · intro hsafe
    have hreads : ∀ e ∈ c.entries.toList, c.ReadsBack e := by
      rintro ⟨key, t | vals⟩ he
      · exact readsBack_text c (hkeys' _ he) t
      · exact readsBack_array (hkeys' _ he)
          (hsafe key vals (Std.TreeMap.mem_toList_iff_getElem?_eq_some.mp he))
    obtain ⟨c', hload, hget⟩ := load_save_of_readsBack hreads hempty
    refine ⟨c', hload, fun key vals hkey => ⟨?_, fun key' _ => hget key'⟩⟩
    rw [hget, hkey]

theorem load_save_arrays_iff_quoted :
    let c := ({} : Config).set (ascii "mods") (.array [ascii " a", [], ascii "b,"])
    (∃ c', load {} (save c) = .ok c' ∧ Restores c c') ↔
      ∀ (key : Bytes) (vals : List Bytes), c.entries[key]? = some (.array vals) →
        c.ArraySafe vals := by
  refine load_save_arrays_iff _ {} rfl fun key e he => ?_
  rw [(entries_single he).1]
  decide

/-- A tab in front of a value is taken for indentation. -/
theorem not_load_save_tab :
    let c := ({} : Config).set (ascii "mods") (.array [ascii "\ta"])
    ¬∃ c', load {} (save c) = .ok c' ∧ Restores c c' := by
  rintro c ⟨c', hload, hrestores⟩
  have hmods : c.entries[ascii "mods"]? = some (.array [ascii "\ta"]) :=
    Std.TreeMap.getElem?_insert_self
  have hsafe : ¬c.ArraySafe [ascii "\ta"] := by
    rintro ⟨h, -⟩
    exact absurd h (by decide)
  have hkeys : ∀ e ∈ c.entries.toList, newline ∉ e.1 := by
    intro e he
    rw [(entries_single (Std.TreeMap.mem_toList_iff_getElem?_eq_some.mp he)).1]
    decide
  obtain ⟨key, vals, hkey, hlost⟩ := not_restored_of_not_safe {} hkeys
    ⟨_, Std.TreeMap.mem_toList_iff_getElem?_eq_some.mpr hmods, _, rfl, hsafe⟩
  exact hlost c' hload (hrestores key vals hkey).1

end Files

end McpeLauncher.PlayApi.Config
