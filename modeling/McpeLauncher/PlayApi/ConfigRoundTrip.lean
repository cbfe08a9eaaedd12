import McpeLauncher.PlayApi.Config

/-!
# Reading back a configuration file

`load` reads back every text that `save` wrote, whatever its bytes are, under any key without line
breaks.
-/

namespace McpeLauncher.PlayApi.Config

/-! ## Escapes -/

section Escapes

variable {special full : UInt8 → Bool} {s t : Bytes} {b : UInt8}

theorem dropEscapes_of_ne (h : b ≠ backslash) :
    dropEscapes special (b :: s) = b :: dropEscapes special s := by
  rw [dropEscapes, if_neg fun hb => h hb.1]

theorem dropEscapes_of_special (h : special b = true) :
    dropEscapes special (backslash :: b :: s) = dropEscapes special (b :: s) := by
  rw [dropEscapes, if_pos ⟨rfl, h⟩]

theorem dropEscapes_of_head (h : s.head?.any special = false) :
    dropEscapes special (backslash :: s) = backslash :: dropEscapes special s := by
  rw [dropEscapes, if_neg fun hb => by simp [h] at hb]

theorem halveBackslashes_of_ne (h : b ≠ backslash) :
    halveBackslashes (b :: s) = b :: halveBackslashes s := by
  cases s with
  | nil => rfl
  | cons a s => rw [halveBackslashes, if_neg fun hb => h hb.1]

theorem escape_of_special (h : special b = true) :
    escape special (b :: s) = backslash :: b :: escape special s := by
  rw [escape, List.flatMap_cons, if_pos h]
  rfl

theorem escape_of_plain (h : special b = false) :
    escape special (b :: s) = b :: escape special s := by
  rw [escape, List.flatMap_cons, if_neg (by simp [h])]
  rfl

/-- Every backslash doubled: what is left after the first pass. -/
def doubleBackslashes (s : Bytes) : Bytes := escape (· = backslash) s

theorem halveBackslashes_double (s : Bytes) : halveBackslashes (doubleBackslashes s) = s := by
  induction s with
  | nil => rfl
  | cons b s ih =>
    rw [doubleBackslashes]
    by_cases hb : b = backslash
    · rw [escape_of_special (by simpa using hb), halveBackslashes, if_pos ⟨rfl, hb⟩, hb]
      exact congrArg _ ih
    · rw [escape_of_plain (by simpa using hb), halveBackslashes_of_ne hb]
      exact congrArg _ ih

/-- The bytes that are escaped in a value. -/
theorem escapeVal_special {b : UInt8} :
    (b = quote || b = newline || b = backslash) = true ↔
      (b = quote ∨ b = newline) ∨ b = backslash := by
  simp

/-- An escaped text begins with no escaped byte but the backslash. -/
theorem head_escape (hfull : ∀ b, full b = (special b || b = backslash))
    (hback : special backslash = false) (s : Bytes) :
    (escape full s).head?.any special = false := by
  cases s with
  | nil => rfl
  | cons b s =>
    cases hb : full b with
    | true =>
      rw [escape_of_special hb]
      exact hback
    | false =>
      rw [escape_of_plain hb]
      rw [hfull, Bool.or_eq_false_iff] at hb
      exact hb.1

/-- The first pass removes the backslashes of all escaped bytes but the backslash. -/
theorem dropEscapes_escape (hfull : ∀ b, full b = (special b || b = backslash))
    (hback : special backslash = false) (s : Bytes) :
    dropEscapes special (escape full s) = doubleBackslashes s := by
  induction s with
  | nil => rfl
  | cons b s ih =>
    have hhead := head_escape hfull hback s
    rw [doubleBackslashes] at ih ⊢
    by_cases hb : b = backslash
    · have hspecial : full b = true := by simp [hfull, hb]
      have hnext : (backslash :: escape full s).head?.any special = false := hback
      rw [escape_of_special hspecial, escape_of_special (by simpa using hb), hb,
        dropEscapes_of_head hnext, dropEscapes_of_head hhead, ih]
    · have hdouble : escape (· = backslash) (b :: s) = b :: escape (· = backslash) s :=
        escape_of_plain (by simpa using hb)
      rw [hdouble]
      cases hspecial : special b with
      | true =>
        rw [escape_of_special (by simp [hfull, hspecial]), dropEscapes_of_special hspecial,
          dropEscapes_of_ne hb, ih]
      | false =>
        rw [escape_of_plain (by simp [hfull, hspecial, hb]), dropEscapes_of_ne hb, ih]

theorem unescapeVal_escapeVal (s : Bytes) : unescapeVal (escapeVal s) = s := by
  have hdrop : dropEscapes (fun b => b = quote || b = newline) (escapeVal s) = doubleBackslashes s :=
    dropEscapes_escape (fun _ => rfl) rfl s
  rw [unescapeVal, hdrop, halveBackslashes_double]

theorem escapeKey_full (b : UInt8) : (b = equals || b = backslash || b = semicolon : Bool) =
    ((b = equals || b = semicolon : Bool) || b = backslash) :=
  Bool.or_right_comm ..

theorem unescapeKey_escapeKey (key : Bytes) : unescapeKey (escapeKey key) = key := by
  have hdrop : dropEscapes (fun b => b = equals || b = semicolon) (escapeKey key) =
      doubleBackslashes key := dropEscapes_escape escapeKey_full rfl key
  rw [unescapeKey, hdrop, halveBackslashes_double]

/-- An escaped key begins neither a comment nor the end of a separator. -/
theorem head_escapeKey (key : Bytes) :
    (escapeKey key).head?.any (fun b => b = equals || b = semicolon) = false :=
  head_escape escapeKey_full rfl key

theorem newline_not_mem_escape (hs : newline ∉ s) (special : UInt8 → Bool) :
    newline ∉ escape special s := by
  rw [escape, List.mem_flatMap]
  rintro ⟨b, hb, hmem⟩
  have hne : newline ≠ b := fun h => hs (h ▸ hb)
  split at hmem
  · rcases List.mem_cons.mp hmem with h | h
    · exact absurd h (by decide)
    · exact hne (List.mem_singleton.mp h)
  · exact hne (List.mem_singleton.mp hmem)

/-- A value is read as it was written, quoted or not. -/
theorem unescapeValue_writeValue (value : Bytes) (array : Bool) :
    unescapeValue (writeValue value array) = .ok value := by
  rw [writeValue]
  split
  · have hlast : (quote :: (escapeVal value ++ [quote])).getLast? = some quote := by
      rw [← List.cons_append, List.getLast?_concat]
    have hinner : ((quote :: (escapeVal value ++ [quote])).drop 1).take
        ((quote :: (escapeVal value ++ [quote])).length - 2) = escapeVal value := by
      simp
    have hhead : (quote :: (escapeVal value ++ [quote])).head? = some quote := rfl
    rw [unescapeValue, if_pos hhead, if_neg (not_not.mpr hlast), hinner, unescapeVal_escapeVal]
  · rename_i hq
    have hhead : value.head? ≠ some quote := by
      intro hh
      apply hq
      simp [mustQuote, hh]
    rw [unescapeValue, if_neg hhead]

end Escapes

/-! ## Lines -/

/-- A text whose line breaks stand behind backslashes, and that does not end with a backslash. -/
inductive Wrapped : Bytes → Prop
  | last {s : Bytes} (hs : newline ∉ s) (hlast : s.getLast? ≠ some backslash) : Wrapped s
  | cont {s t : Bytes} (hs : newline ∉ s) (hne : t ≠ []) (ht : Wrapped t) :
      Wrapped (s ++ backslash :: newline :: t)

section Lines

variable {s t rest : Bytes}

theorem getlines_append (hs : newline ∉ s) (rest : Bytes) :
    getlines (s ++ newline :: rest) = s :: getlines rest := by
  induction s with
  | nil => rw [List.nil_append, getlines, if_pos rfl]
  | cons b s ih =>
    rw [List.mem_cons, not_or] at hs
    rw [List.cons_append, getlines, if_neg (Ne.symm hs.1), ih hs.2]

theorem continueLine_of_last (h : s.getLast? ≠ some backslash) (ls : List Bytes) :
    continueLine s ls = .ok (s, ls) := by
  cases ls with
  | nil => rw [continueLine, if_neg h]
  | cons => rw [continueLine, if_neg h]

theorem getLast?_append_cons (s : Bytes) (b : UInt8) (t : Bytes) (h : t ≠ []) :
    (s ++ b :: t).getLast? = t.getLast? := by
  rw [List.getLast?_append_of_ne_nil _ (List.cons_ne_nil b t)]
  obtain ⟨a, t, rfl⟩ := List.exists_cons_of_ne_nil h
  rw [List.getLast?_cons_cons]

/-- A line that ends with a backslash goes on until the end of the wrapped text. -/
theorem Wrapped.continueLine (h : Wrapped t) (hne : t ≠ []) {line : Bytes}
    (hline : line.getLast? = some backslash) (rest : Bytes) :
    Config.continueLine line (getlines (t ++ newline :: rest)) =
      .ok (line ++ newline :: t, getlines rest) := by
  induction h generalizing line with
  | @last s hs hlast =>
    rw [getlines_append hs, Config.continueLine, if_pos hline]
    apply continueLine_of_last
    rwa [getLast?_append_cons line newline s hne]
  | @cont s t hs ht _ ih =>
    have hsplit : s ++ backslash :: newline :: t ++ newline :: rest =
        (s ++ [backslash]) ++ newline :: (t ++ newline :: rest) := by simp
    have hs' : newline ∉ s ++ [backslash] := by
      rw [List.mem_append, not_or]
      exact ⟨hs, by decide⟩
    have hline' : (line ++ newline :: (s ++ [backslash])).getLast? = some backslash := by
      rw [getLast?_append_cons _ _ _ (by simp), List.getLast?_concat]
    rw [hsplit, getlines_append hs', Config.continueLine, if_pos hline, ih ht hline']
    simp

/-- A wrapped text is one line for `read_line`. -/
theorem Wrapped.readLine (h : Wrapped t) {b : UInt8} (hhead : t.head? = some b)
    (hsemicolon : b ≠ semicolon) (rest : Bytes) :
    Config.readLine (getlines (t ++ newline :: rest)) = .ok (some (t, getlines rest)) := by
  cases h with
  | last hs hlast =>
    have hne : ¬(t = [] ∨ t.head? = some semicolon) := by
      rw [hhead, Option.some.injEq]
      rintro (rfl | h)
      · cases hhead
      · exact hsemicolon h
    rw [getlines_append hs, Config.readLine, if_neg hne, continueLine_of_last hlast]
    rfl
  | @cont s t hs ht hwrapped =>
    have hsplit : s ++ backslash :: newline :: t ++ newline :: rest =
        (s ++ [backslash]) ++ newline :: (t ++ newline :: rest) := by simp
    have hs' : newline ∉ s ++ [backslash] := by
      rw [List.mem_append, not_or]
      exact ⟨hs, by decide⟩
    have hhead' : (s ++ [backslash]).head? = some b := by
      cases s with
      | nil => exact hhead
      | cons => exact hhead
    have hne : ¬(s ++ [backslash] = [] ∨ (s ++ [backslash]).head? = some semicolon) := by
      rw [hhead', Option.some.injEq]
      rintro (h | h)
      · simp at h
      · exact hsemicolon h
    rw [hsplit, getlines_append hs', Config.readLine, if_neg hne,
      hwrapped.continueLine ht (List.getLast?_concat ..)]
    simp [Except.map]

/-- An escaped text in quotes is wrapped, behind anything without line breaks. -/
theorem wrapped_escapeVal (hs : newline ∉ s) (value : Bytes) :
    Wrapped (s ++ (escapeVal value ++ [quote])) := by
  induction value generalizing s with
  | nil =>
    apply Wrapped.last
    · simpa [escapeVal, escape, hs] using (by decide : newline ≠ quote)
    · simp [escapeVal, escape]
      decide
  | cons b value ih =>
    rw [escapeVal] at ih ⊢
    by_cases hb : b = newline
    · rw [escape_of_special (escapeVal_special.mpr (.inl (.inr hb))), hb]
      exact .cont hs (by simp) (ih List.not_mem_nil)
    · cases hspecial : (b = quote || b = newline || b = backslash : Bool) with
      | true =>
        have hs' : newline ∉ s ++ [backslash, b] := by
          simp only [List.mem_append, List.mem_cons, List.not_mem_nil, or_false, not_or]
          exact ⟨hs, by decide, Ne.symm hb⟩
        rw [escape_of_special hspecial]
        simpa using ih hs'
      | false =>
        have hs' : newline ∉ s ++ [b] := by
          simp only [List.mem_append, List.mem_cons, List.not_mem_nil, or_false, not_or]
          exact ⟨hs, Ne.symm hb⟩
        rw [escape_of_plain hspecial]
        simpa using ih hs'

/-- A written value is wrapped, behind the key and the separator. -/
theorem wrapped_writeValue (hs : newline ∉ s) (value : Bytes) :
    Wrapped (s ++ separator ++ writeValue value false) := by
  have hsep : newline ∉ s ++ separator := by
    rw [List.mem_append, not_or]
    exact ⟨hs, by decide⟩
  rw [writeValue]
  split
  · have hquote : newline ∉ s ++ separator ++ [quote] := by
      rw [List.mem_append, not_or]
      exact ⟨hsep, by decide⟩
    simpa using wrapped_escapeVal hquote value
  · rename_i hq
    simp only [mustQuote, Bool.false_and, Bool.or_false, Bool.or_eq_true, decide_eq_true_eq,
      List.contains_iff_mem, not_or] at hq
    apply Wrapped.last
    · rw [List.mem_append, not_or]
      exact ⟨hsep, hq.2⟩
    · cases value with
      | nil =>
        rw [List.append_nil, separator, List.getLast?_append_of_ne_nil _ (List.cons_ne_nil _ _)]
        decide
      | cons b value =>
        rw [List.getLast?_append_of_ne_nil _ (List.cons_ne_nil _ _)]
        exact hq.1.2

end Lines

/-! ## Entries -/

/-- A key that is written as it is: not empty, without line breaks, blanks and escaped bytes. -/
structure PlainKey (key : Bytes) : Prop where
  ne_nil : key ≠ []
  plain : ∀ b ∈ key, b ≠ newline ∧ b ≠ space ∧ b ≠ equals ∧ b ≠ semicolon ∧ b ≠ backslash

section Entries

variable {key : Bytes}

theorem findSeparator_cons {b : UInt8} {s : Bytes} (h : b = space → s.head? ≠ some equals) :
    findSeparator (b :: s) = (findSeparator s).map fun p => (b :: p.1, p.2) := by
  have hprefix : separator.isPrefixOf (b :: s) = false := by
    cases s with
    | nil => simp [separator, List.isPrefixOf]
    | cons a s =>
      simp only [separator, List.isPrefixOf, Bool.and_eq_false_iff, beq_eq_false_iff_ne]
      by_cases hb : b = space
      · exact .inr (.inl fun ha => h hb (congrArg some ha.symm))
      · exact .inl (Ne.symm hb)
  rw [findSeparator, hprefix]
  rfl

/-- The separator behind an escaped key is the first one. -/
theorem findSeparator_escapeKey (key value : Bytes) :
    findSeparator (escapeKey key ++ separator ++ value) = some (escapeKey key, value) := by
  induction key with
  | nil => rfl
  | cons b key ih =>
    cases hb : (b = equals || b = backslash || b = semicolon : Bool) with
    | true =>
      have hspace : b ≠ space := by
        rintro rfl
        cases hb
      rw [escapeKey] at ih ⊢
      rw [escape_of_special hb, List.cons_append, List.cons_append, List.cons_append,
        List.cons_append, findSeparator_cons fun h => absurd h (by decide),
        findSeparator_cons fun h => absurd h hspace, ih]
      rfl
    | false =>
      have hhead : (escapeKey key ++ separator ++ value).head? ≠ some equals := by
        have hkey := head_escapeKey key
        cases hs : escapeKey key with
        | nil =>
          intro h
          cases h
        | cons a s =>
          rw [hs] at hkey
          rintro ⟨⟩
          cases hkey
      rw [escapeKey] at ih hhead ⊢
      rw [escape_of_plain hb, List.cons_append, List.cons_append, findSeparator_cons fun _ => hhead,
        ih]
      rfl

/-- The first line of an entry is not a comment. -/
theorem head_entry (key value : Bytes) :
    ∃ b, (escapeKey key ++ separator ++ value).head? = some b ∧ b ≠ semicolon := by
  have hkey := head_escapeKey key
  cases hs : escapeKey key with
  | nil => exact ⟨space, rfl, by decide⟩
  | cons b s =>
    rw [hs] at hkey
    refine ⟨b, rfl, ?_⟩
    rintro rfl
    cases hkey

theorem writeValue_ne_bracket (value : Bytes) : writeValue value false ≠ [bracket] := by
  rw [writeValue]
  split
  · simp [quote, bracket]
  · rintro rfl
    exact absurd ‹_› (by decide)

/-- The array of a key is read: the rest is loaded behind it. -/
def closeArray (key : Bytes) (c : Config) :
    Except ConfigError (List Bytes × List Bytes) → Except ConfigError Config
  | .error x => .error x
  | .ok (vals, rest) => loadLines rest (c.set key (.array vals))

theorem loadLines_eq (ls : List Bytes) (c : Config) :
    loadLines ls c =
      match readLine ls with
      | .error x => .error x
      | .ok none => .ok c
      | .ok (some (line, rest)) =>
        match findSeparator line with
        | none => loadLines rest c
        | some (key, val) =>
          if val = [bracket] then closeArray (Config.unescapeKey key) c (readArray rest [])
          else
            match unescapeValue val with
            | .error x => .error x
            | .ok t => loadLines rest (c.set (Config.unescapeKey key) (.text t)) := by
  rw [loadLines]
  split
  · rename_i h
    simp only [h]
  · rename_i h
    simp only [h]
  · rename_i line rest h
    simp only [h]
    cases findSeparator line with
    | none => rfl
    | some kv =>
      dsimp only
      split
      · cases readArray rest [] <;> rfl
      · rfl

theorem loadLines_of_text {ls rest : List Bytes} {line val t : Bytes} (c : Config)
    (hread : readLine ls = .ok (some (line, rest))) (hfind : findSeparator line = some (key, val))
    (hval : val ≠ [bracket]) (hunescape : unescapeValue val = .ok t) :
    loadLines ls c = loadLines rest (c.set (Config.unescapeKey key) (.text t)) := by
  rw [loadLines_eq, hread]
  simp only [hfind, if_neg hval, hunescape]

theorem loadLines_nil (c : Config) : loadLines [] c = .ok c := loadLines_eq [] c

/-- An entry is read back, whatever follows it. -/
def ReadsBack (c : Config) (e : Bytes × ConfigEntry) : Prop :=
  ∀ (c' : Config) (rest : Bytes),
    loadLines (getlines (c.writeEntry e ++ rest)) c' = loadLines (getlines rest) (c'.set e.1 e.2)

theorem readsBack_text (c : Config) (hkey : newline ∉ key) (value : Bytes) :
    c.ReadsBack (key, .text value) := by
  intro c' rest
  obtain ⟨b, hhead, hsemicolon⟩ := head_entry key (writeValue value false)
  have hnewline : newline ∉ escapeKey key := newline_not_mem_escape hkey _
  have hline := (wrapped_writeValue hnewline value).readLine hhead hsemicolon rest
  have htext : c.writeEntry (key, .text value) ++ rest =
      escapeKey key ++ separator ++ writeValue value false ++ newline :: rest := by
    simp [writeEntry]
  rw [htext, loadLines_of_text c' hline (findSeparator_escapeKey key _)
    (writeValue_ne_bracket value) (unescapeValue_writeValue value false), unescapeKey_escapeKey]

/-- A list of entries is read back, one after the other. -/
theorem loadLines_flatMap (c c' : Config) (entries : List (Bytes × ConfigEntry))
    (h : ∀ e ∈ entries, c.ReadsBack e) (rest : Bytes) :
    loadLines (getlines (entries.flatMap c.writeEntry ++ rest)) c' =
      loadLines (getlines rest) (entries.foldl (fun c e => c.set e.1 e.2) c') := by
  induction entries generalizing c' with
  | nil => rfl
  | cons e entries ih =>
    rw [List.flatMap_cons, List.append_assoc, h e (.head _),
      ih _ fun e' he => h e' (.tail e he)]
    rfl

theorem entries_foldl_set {α : Type _} (f : α → Bytes) (g : α → ConfigEntry) (l : List α)
    (c : Config) : (l.foldl (fun c a => c.set (f a) (g a)) c).entries =
      l.foldl (fun m a => m.insert (f a) (g a)) c.entries := by
  induction l generalizing c with
  | nil => rfl
  | cons a l ih => exact ih (c.set (f a) (g a))

/-- A configuration whose entries are all read back. -/
theorem load_save_of_readsBack {c c₀ : Config} (h : ∀ e ∈ c.entries.toList, c.ReadsBack e)
    (hempty : c₀.entries = ∅) :
    ∃ c', load c₀ (save c) = .ok c' ∧ ∀ key : Bytes, c'.entries[key]? = c.entries[key]? := by
  have hload := loadLines_flatMap c c₀ c.entries.toList h []
  rw [List.append_nil, getlines, loadLines_nil] at hload
  refine ⟨_, hload, fun key => ?_⟩
  rw [entries_foldl_set Prod.fst Prod.snd, hempty]
  exact (TreeMaps.getElem?_foldl_insert_toList c.entries id key).trans Option.map_id_apply

/-- All entries are texts under plain keys. -/
def Plain (c : Config) : Prop :=
  ∀ (key : Bytes) (e : ConfigEntry), c.entries[key]? = some e → PlainKey key ∧ ∃ t, e = .text t

/-- **What is saved is loaded**, under any keys without line breaks. -/
theorem load_save_texts {c c₀ : Config} (hempty : c₀.entries = ∅)
    (htexts : ∀ (key : Bytes) (e : ConfigEntry), c.entries[key]? = some e →
      newline ∉ key ∧ ∃ t, e = .text t) :
    ∃ c', load c₀ (save c) = .ok c' ∧ ∀ key : Bytes, c'.entries[key]? = c.entries[key]? := by
  refine load_save_of_readsBack (fun e he => ?_) hempty
  obtain ⟨key, e⟩ := e
  obtain ⟨hkey, t, rfl⟩ := htexts key e (Std.TreeMap.mem_toList_iff_getElem?_eq_some.mp he)
  exact readsBack_text c hkey t

theorem entries_single {key' : Bytes} {e e' : ConfigEntry}
    (h : (({} : Config).set key e).entries[key']? = some e') : key' = key ∧ e' = e := by
  simp only [set, Std.TreeMap.getElem?_insert] at h
  split at h
  · next heq =>
    cases h
    exact ⟨(Std.LawfulEqOrd.eq_of_compare heq).symm, rfl⟩
  · cases h

/-- A key and a value of bytes that have a meaning in the file. -/
theorem load_save_texts_special :
    let key := ascii ";a = \\"
  let c := ({} : Config).set key (.text (ascii "[\\\\\"\\\n\n = \\"))
    ∃ c', load {} (save c) = .ok c' ∧ ∀ key : Bytes, c'.entries[key]? = c.entries[key]? := by
  refine load_save_texts rfl fun key e he => ?_
  obtain ⟨rfl, rfl⟩ := entries_single he
  exact ⟨by decide, _, rfl⟩

end Entries
end McpeLauncher.PlayApi.Config
