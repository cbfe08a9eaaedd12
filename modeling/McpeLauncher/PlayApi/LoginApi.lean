import McpeLauncher.Lib.Split
import McpeLauncher.PlayApi.LoginCache

/-!
# Responses to logins

`login_api::handle_response`: the body is a list of lines `key=value`, from which the cookie, the
token and the e-mail are taken. The fields of the response are checked one after the other, with the
updates of the state in between.
-/

namespace McpeLauncher.PlayApi

/-- What `handle_response` reads of a request. -/
structure LoginRequest where
  service : Bytes
  app : Bytes
  viaPassword : Bool
  email : Bytes
  isAccessToken : Bool

inductive LoginError
  | runtimeError (what : Bytes)
  | stoi (e : Decimal.ConversionError)
  deriving DecidableEq

/-- The state that a login changes; the cache is any implementation of `login_cache`. -/
structure LoginApi (γ : Type) where
  email : Bytes
  token : Bytes
  cache : γ

namespace LoginApi

def equals : UInt8 := 61
def newline : UInt8 := 10
def carriageReturn : UInt8 := 13

abbrev ResponseValues := Std.TreeMap Bytes Bytes

def dropCr (val : Bytes) : Bytes :=
  if val.getLast? = some carriageReturn then val.dropLast else val

/-- The loop over the body: the key is all up to the next `=`, and the value ends at the next line
break behind it. -/
def readValues (body : Bytes) (respValMap : ResponseValues) : ResponseValues :=
  match _h : Split.first equals body with
  | none => respValMap
  | some (key, tail) =>
    match _h' : Split.first newline tail with
    | none => respValMap
    | some (val, rest) => readValues rest (respValMap.insert key (dropCr val))
termination_by body.length
decreasing_by exact Nat.lt_trans (Split.length_of_first _h') (Split.length_of_first _h)

def respValMap (body : Bytes) : ResponseValues := readValues body ∅

/-- A time point some seconds after another one. -/
def addSeconds (start : Int64) (n : Int) : Int64 := start + Int64.ofInt (n * 1000000000)

def expiresAt (m : ResponseValues) (start : Int64) (auth : Bytes) : Except LoginError Int64 :=
  match m[ascii "Expires"]? with
  | some val =>
    match Decimal.stoi val with
    | .error e => .error (.stoi e)
    | .ok n => .ok (addSeconds start n)
  | none =>
    if (ascii "oauth2:").isPrefixOf auth then .ok (addSeconds start 3600)
    else .ok (addSeconds start (3600 * 24 * 14))

variable {γ : Type}

def setToken (s : LoginApi γ) (email token : Bytes) : LoginApi γ := { s with email, token }

/-- The end of `handle_response`, for a request with an access token. -/
def updateEmail (m : ResponseValues) (request : LoginRequest) (auth : Bytes) (s : LoginApi γ) :
    Except LoginError Bytes × LoginApi γ :=
  if request.isAccessToken then
    match m[ascii "Email"]? with
    | none => (.error (.runtimeError (ascii "No Email returned")), s)
    | some email => (.ok auth, { s with email })
  else (.ok auth, s)

def updateToken (m : ResponseValues) (request : LoginRequest) (auth : Bytes) (s : LoginApi γ) :
    Except LoginError Bytes × LoginApi γ :=
  if request.viaPassword || request.isAccessToken then
    match m[ascii "Token"]? with
    | none => (.error (.runtimeError (ascii "No Oauth2 token returned")), s)
    | some token => updateEmail m request auth (s.setToken request.email token)
  else updateEmail m request auth s

/-- The text of the error ends at the first zero of the body. -/
def noAuthError (statusCode : Int) (body : Bytes) : LoginError :=
  .runtimeError ((ascii "No auth cookie field returned with statuscode:  " ++
    Decimal.intText statusCode ++ ascii ", body:\n" ++ body).takeWhile (· ≠ 0))

/-- `store` is the `cache` of the login cache. -/
def handleResponse (store : γ → CookieKey → Cookie → γ) (statusCode : Int) (body : Bytes)
    (request : LoginRequest) (start : Int64) (s : LoginApi γ) :
    Except LoginError Bytes × LoginApi γ :=
  let m := respValMap body
  match m[ascii "Error"]? with
  | some error => (.error (.runtimeError (ascii "Login error: " ++ error)), s)
  | none =>
    match m[ascii "Auth"]? with
    | none => (.error (noAuthError statusCode body), s)
    | some auth =>
      match expiresAt m start auth with
      | .error x => (.error x, s)
      | .ok expires =>
        updateToken m request auth
          { s with cache := store s.cache (request.service, request.app) ⟨auth, expires⟩ }

/-! ## The lines of a body -/

/-- The lines with a line break at their end, and what is behind the last of them. -/
def bodyLines : Bytes → List Bytes × Bytes
  | [] => ([], [])
  | b :: s =>
    if b = newline then ([] :: (bodyLines s).1, (bodyLines s).2)
    else
      match bodyLines s with
      | ([], last) => ([], b :: last)
      | (line :: ls, last) => ((b :: line) :: ls, last)

/-- The text of lines. -/
def ofLines (ls : List Bytes) (last : Bytes) : Bytes := ls.flatMap (· ++ [newline]) ++ last

/-- The entries of lines `key=value`. A carriage return in front of a line break belongs to it. -/
def lineEntries (ls : List Bytes) : List (Bytes × Bytes) :=
  ls.filterMap fun line => Split.first equals (dropCr line)

/-- The entries of all lines of a body. -/
def bodyEntries (body : Bytes) : List (Bytes × Bytes) :=
  lineEntries (bodyLines body).1 ++ (Split.first equals (bodyLines body).2).toList

/-- The value of a key, of which the last entry counts. -/
def lastValue (entries : List (Bytes × Bytes)) (key : Bytes) : Option Bytes :=
  (entries.reverse.find? (·.1 = key)).map (·.2)

/-- The map has one entry for each line of the form `key=value`, and no other. -/
def ReadsLines (body : Bytes) : Prop :=
  ∀ key : Bytes, (respValMap body)[key]? = lastValue (bodyEntries body) key

/-- A line is added, in front of another one or at the end. -/
inductive AddsLine (line : Bytes) : Bytes → Bytes → Prop
  | before {s t : Bytes} (h : s = [] ∨ s.getLast? = some newline) :
    AddsLine line (s ++ t) (s ++ (line ++ newline :: t))
  | last {s : Bytes} (hne : s ≠ []) (hlast : s.getLast? ≠ some newline) :
    AddsLine line s (s ++ newline :: line)

/-- Another line without `=` does not change the map. -/
def IgnoresLines (body : Bytes) : Prop :=
  ∀ line body', equals ∉ line → newline ∉ line → AddsLine line body body' →
    ∀ key : Bytes, (respValMap body')[key]? = (respValMap body)[key]?

section Lines

variable {s line last : Bytes} {ls : List Bytes}

theorem ofLines_cons (line : Bytes) (ls : List Bytes) (last : Bytes) :
    ofLines (line :: ls) last = line ++ newline :: ofLines ls last := by
  simp [ofLines]

theorem ofLines_bodyLines (s : Bytes) : ofLines (bodyLines s).1 (bodyLines s).2 = s := by
  induction s with
  | nil => rfl
  | cons b s ih =>
    rw [bodyLines]
    split
    · next hb =>
      rw [ofLines_cons, ih, hb]
      rfl
    · split
      · next last heq =>
        rw [heq] at ih
        exact congrArg (b :: ·) ih
      · next line ls last heq =>
        rw [heq, ofLines_cons] at ih
        rw [ofLines_cons]
        exact congrArg (b :: ·) ih

theorem newline_not_mem_bodyLines (s : Bytes) :
    (∀ line ∈ (bodyLines s).1, newline ∉ line) ∧ newline ∉ (bodyLines s).2 := by
  induction s with
  | nil => exact ⟨fun line h => absurd h List.not_mem_nil, List.not_mem_nil⟩
  | cons b s ih =>
    rw [bodyLines]
    split
    · refine ⟨fun line h => ?_, ih.2⟩
      rcases List.mem_cons.mp h with rfl | h
      · exact List.not_mem_nil
      · exact ih.1 line h
    · next hb =>
      split
      · next last heq =>
        rw [heq] at ih
        refine ⟨fun line h => absurd h List.not_mem_nil, ?_⟩
        rw [List.mem_cons, not_or]
        exact ⟨Ne.symm hb, ih.2⟩
      · next line ls last heq =>
        rw [heq] at ih
        refine ⟨fun line' h => ?_, ih.2⟩
        rcases List.mem_cons.mp h with rfl | h
        · rw [List.mem_cons, not_or]
          exact ⟨Ne.symm hb, ih.1 line (.head ls)⟩
        · exact ih.1 line' (.tail line h)

theorem first_dropCr (line : Bytes) : Split.first equals (dropCr line) =
    (Split.first equals line).map fun p => (p.1, dropCr p.2) := by
  cases h : Split.first equals line with
  | none =>
    rw [Option.map_none, Split.first_eq_none]
    rw [Split.first_eq_none] at h
    rw [dropCr]
    split
    · exact fun hmem => h (List.dropLast_subset _ hmem)
    · exact h
  | some p =>
    obtain ⟨key, val⟩ := p
    obtain ⟨rfl, hkey⟩ := Split.first_eq_some.mp h
    have hdrop : dropCr (key ++ equals :: val) = key ++ equals :: dropCr val := by
      cases val with
      | nil =>
        rw [dropCr, List.getLast?_concat, if_neg (by decide)]
        rfl
      | cons b val =>
        have hlast : (key ++ equals :: b :: val).getLast? = (b :: val).getLast? := by
          rw [List.getLast?_append_of_ne_nil _ (List.cons_ne_nil _ _), List.getLast?_cons_cons]
        rw [dropCr, dropCr, hlast]
        split
        · rw [List.dropLast_append_of_ne_nil (List.cons_ne_nil _ _), List.dropLast_cons_cons]
        · rfl
    rw [hdrop, Split.first_append hkey]
    rfl

end Lines

/-! ## What the loop takes for entries -/

/-- The entries that the loop finds in lines, with `p` in front of the first key. -/
def readEntries : Bytes → List Bytes → List (Bytes × Bytes)
  | _, [] => []
  | p, line :: ls =>
    match Split.first equals line with
    | none => readEntries (p ++ line ++ [newline]) ls
    | some (key, val) => (p ++ key, dropCr val) :: readEntries [] ls

/-- No line with `=` stands behind one without. -/
def EntriesFirst (ls : List Bytes) : Prop := ls.Pairwise fun a b => equals ∈ b → equals ∈ a

section Reading

variable {p last : Bytes} {ls : List Bytes}

theorem readValues_eq (body : Bytes) (m : ResponseValues) :
    readValues body m =
      match Split.first equals body with
      | none => m
      | some (key, tail) =>
        match Split.first newline tail with
        | none => m
        | some (val, rest) => readValues rest (m.insert key (dropCr val)) := by
  rw [readValues]
  split
  · next h => simp only [h]
  · next key tail h =>
    simp only [h]
    split
    · next h' => simp only [h']
    · next val rest h' => simp only [h']

/-- A last line is not read. -/
theorem readValues_of_last (hp : equals ∉ p) (hlast : newline ∉ last) (m : ResponseValues) :
    readValues (p ++ last) m = m := by
  rw [readValues_eq, Split.first_append_left hp]
  cases h : Split.first equals last with
  | none => rfl
  | some q =>
    -- what is behind the first `=` belongs to the last line
    have htail : newline ∉ q.2 := by
      rw [(Split.first_eq_some.mp h).1] at hlast
      exact fun hmem => hlast (by simp [hmem])
    simp only [Option.map_some, Split.first_eq_none.mpr htail]

theorem readValues_ofLines (hp : equals ∉ p) (hls : ∀ line ∈ ls, newline ∉ line)
    (hlast : newline ∉ last) (m : ResponseValues) :
    readValues (p ++ ofLines ls last) m =
      (readEntries p ls).foldl (fun m e => m.insert e.1 e.2) m := by
  induction ls generalizing p m with
  | nil =>
    rw [ofLines, List.flatMap_nil, List.nil_append]
    exact readValues_of_last hp hlast m
  | cons line ls ih =>
    obtain ⟨hline, hrest⟩ := List.forall_mem_cons.mp hls
    rw [ofLines_cons, readEntries]
    cases h : Split.first equals line with
    | none =>
      have hglue : p ++ (line ++ newline :: ofLines ls last) =
          p ++ line ++ [newline] ++ ofLines ls last := by simp
      have hp' : equals ∉ p ++ line ++ [newline] := by
        simp only [List.mem_append, not_or]
        exact ⟨⟨hp, Split.first_eq_none.mp h⟩, by decide⟩
      rw [hglue]
      exact ih hp' hrest m
    | some q =>
      obtain ⟨key, val⟩ := q
      obtain ⟨rfl, hkey⟩ := Split.first_eq_some.mp h
      have hval : newline ∉ val := fun hmem => hline (by simp [hmem])
      have htext : key ++ equals :: val ++ newline :: ofLines ls last =
          key ++ equals :: (val ++ newline :: ofLines ls last) := by simp
      rw [htext, readValues_eq, Split.first_append_left hp, Split.first_append hkey]
      simp only [Option.map_some, Split.first_append hval]
      exact ih List.not_mem_nil hrest _

/-- The lines of a body, behind other lines without `=`. -/
theorem respValMap_append (hp : equals ∉ p) (body : Bytes) : respValMap (p ++ body) =
    (readEntries p (bodyLines body).1).foldl (fun m e => m.insert e.1 e.2) ∅ := by
  obtain ⟨hls, hlast⟩ := newline_not_mem_bodyLines body
  have h := readValues_ofLines hp hls hlast ∅
  rwa [ofLines_bodyLines] at h

theorem readEntries_of_forall (h : ∀ line ∈ ls, equals ∉ line) (p : Bytes) :
    readEntries p ls = [] := by
  induction ls generalizing p with
  | nil => rfl
  | cons line ls ih =>
    obtain ⟨hline, hls⟩ := List.forall_mem_cons.mp h
    rw [readEntries, Split.first_eq_none.mpr hline]
    exact ih hls _

theorem lineEntries_of_forall (h : ∀ line ∈ ls, equals ∉ line) : lineEntries ls = [] := by
  apply List.filterMap_eq_nil_iff.mpr
  intro line hline
  rw [first_dropCr, Split.first_eq_none.mpr (h line hline)]
  rfl

theorem EntriesFirst.readEntries (h : EntriesFirst ls) : readEntries [] ls = lineEntries ls := by
  induction ls with
  | nil => rfl
  | cons line ls ih =>
    obtain ⟨hline, hls⟩ := List.pairwise_cons.mp h
    rw [LoginApi.readEntries, lineEntries, List.filterMap_cons, first_dropCr]
    cases hf : Split.first equals line with
    | none =>
      have hnone : ∀ l ∈ ls, equals ∉ l :=
        fun l hl hmem => Split.first_eq_none.mp hf (hline l hl hmem)
      exact (readEntries_of_forall hnone _).trans (lineEntries_of_forall hnone).symm
    | some q => exact congrArg (_ :: ·) (ih hls)

/-- What stands in front of a key becomes a part of it. -/
theorem exists_glued (hp : newline ∈ p) (h : ∃ line ∈ ls, equals ∈ line) :
    ∃ e ∈ readEntries p ls, newline ∈ e.1 := by
  induction ls generalizing p with
  | nil => simp at h
  | cons line ls ih =>
    rw [readEntries]
    cases hf : Split.first equals line with
    | none =>
      apply ih
      · simp
      · obtain ⟨l, hl, hmem⟩ := h
        rcases List.mem_cons.mp hl with rfl | hl
        · exact absurd hmem (Split.first_eq_none.mp hf)
        · exact ⟨l, hl, hmem⟩
    | some q => exact ⟨_, .head _, List.mem_append_left _ hp⟩

theorem exists_glued_of_not_entriesFirst (h : ¬EntriesFirst ls) :
    ∃ e ∈ readEntries [] ls, newline ∈ e.1 := by
  induction ls with
  | nil => exact absurd .nil h
  | cons line ls ih =>
    rw [readEntries]
    cases hf : Split.first equals line with
    | none =>
      apply exists_glued (by simp)
      by_contra hnone
      have hnone : ∀ l ∈ ls, equals ∉ l := fun l hl hmem => hnone ⟨l, hl, hmem⟩
      refine h (List.pairwise_cons.mpr ⟨fun l hl hmem => absurd hmem (hnone l hl), ?_⟩)
      exact List.pairwise_of_forall_mem_list fun a _ b hb hmem => absurd hmem (hnone b hb)
    | some q =>
      have hline : equals ∈ line := by
        by_contra hmem
        rw [Split.first_eq_none.mpr hmem] at hf
        cases hf
      have hls : ¬EntriesFirst ls := fun hls => h (List.pairwise_cons.mpr ⟨fun _ _ _ => hline, hls⟩)
      obtain ⟨e, he, hmem⟩ := ih hls
      exact ⟨e, .tail _ he, hmem⟩

end Reading

/-! ## The map -/

section Map

variable {body key val : Bytes} {entries : List (Bytes × Bytes)}

theorem getElem?_respValMap_append {p : Bytes} (hp : equals ∉ p) (body key : Bytes) :
    (respValMap (p ++ body))[key]? = lastValue (readEntries p (bodyLines body).1) key := by
  rw [respValMap_append hp]
  exact TreeMaps.getElem?_foldl_insert ..

theorem getElem?_respValMap (body key : Bytes) :
    (respValMap body)[key]? = lastValue (readEntries [] (bodyLines body).1) key :=
  getElem?_respValMap_append List.not_mem_nil body key

theorem lastValue_concat (entries : List (Bytes × Bytes)) (e : Bytes × Bytes) (key : Bytes) :
    lastValue (entries ++ [e]) key = if e.1 = key then some e.2 else lastValue entries key := by
  rw [lastValue, List.reverse_append, List.reverse_singleton, List.singleton_append]
  split
  · next h =>
    rw [List.find?_cons_of_pos (by simpa using h)]
    rfl
  · next h =>
    rw [List.find?_cons_of_neg (by simpa using h)]
    rfl

theorem mem_of_lastValue (h : lastValue entries key = some val) : (key, val) ∈ entries := by
  obtain ⟨e, hfind, rfl⟩ := Option.map_eq_some_iff.mp h
  have hkey := List.find?_some hfind
  rw [decide_eq_true_eq] at hkey
  exact hkey ▸ List.mem_reverse.mp (List.mem_of_find?_eq_some hfind)

theorem exists_lastValue {e : Bytes × Bytes} (h : e ∈ entries) :
    ∃ val, lastValue entries e.1 = some val := by
  have hsome : (entries.reverse.find? (·.1 = e.1)).isSome := by
    rw [List.find?_isSome]
    exact ⟨e, List.mem_reverse.mpr h, by simp⟩
  obtain ⟨e', he'⟩ := Option.isSome_iff_exists.mp hsome
  exact ⟨e'.2, by rw [lastValue, he']; rfl⟩

/-- A key of a line has no line break in it. -/
theorem newline_not_mem_key {e : Bytes × Bytes} (h : e ∈ bodyEntries body) : newline ∉ e.1 := by
  obtain ⟨hls, hlast⟩ := newline_not_mem_bodyLines body
  have hline : ∀ {line}, newline ∉ line → ∀ {val}, Split.first equals line = some (e.1, val) →
      newline ∉ e.1 := by
    intro line hline val hfirst hmem
    rw [(Split.first_eq_some.mp hfirst).1] at hline
    exact hline (List.mem_append_left _ hmem)
  rcases List.mem_append.mp h with h | h
  · obtain ⟨line, hmem, hfirst⟩ := List.mem_filterMap.mp h
    rw [first_dropCr] at hfirst
    obtain ⟨p, hp, rfl⟩ := Option.map_eq_some_iff.mp hfirst
    exact hline (hls line hmem) hp
  · exact hline hlast (Option.mem_toList.mp h)

/-- No line that the map could have been made of has a key with a line break. -/
theorem ReadsLines.entriesFirst (h : ReadsLines body) : EntriesFirst (bodyLines body).1 := by
  by_contra hnot
  obtain ⟨e, he, hmem⟩ := exists_glued_of_not_entriesFirst hnot
  obtain ⟨val, hval⟩ := exists_lastValue he
  have hbody := h e.1
  rw [getElem?_respValMap, hval] at hbody
  exact newline_not_mem_key (mem_of_lastValue hbody.symm) hmem

/-- **Exactly when the map has the entries of the lines**: no line with `=` stands behind one
without, and what is behind the last line break gives no other value than the lines. -/
theorem readsLines_iff_entriesFirst (body : Bytes) : ReadsLines body ↔
    EntriesFirst (bodyLines body).1 ∧
      ∀ key val, Split.first equals (bodyLines body).2 = some (key, val) →
        lastValue (lineEntries (bodyLines body).1) key = some val := by
  constructor
  · intro h
    refine ⟨h.entriesFirst, fun key val hfirst => ?_⟩
    have hbody := h key
    rw [getElem?_respValMap, h.entriesFirst.readEntries, bodyEntries, hfirst] at hbody
    rw [hbody, Option.toList, lastValue_concat, if_pos rfl]
  · rintro ⟨hentries, hlast⟩ key
    rw [getElem?_respValMap, hentries.readEntries, bodyEntries]
    cases hfirst : Split.first equals (bodyLines body).2 with
    | none => rw [Option.toList, List.append_nil]
    | some e =>
      obtain ⟨key', val⟩ := e
      rw [Option.toList, lastValue_concat]
      split
      · next heq => exact heq ▸ hlast key' val hfirst
      · rfl

theorem mem_ofLines {b : UInt8} (hb : b ≠ newline) {ls : List Bytes} {last : Bytes} :
    b ∈ ofLines ls last ↔ (∃ line ∈ ls, b ∈ line) ∨ b ∈ last := by
  simp [ofLines, hb]

/-- The value behind the last line break is that of a line. -/
theorem ReadsLines.exists_line (h : ReadsLines body) (hmem : equals ∈ body) :
    ∃ line ∈ (bodyLines body).1, equals ∈ line := by
  rw [← ofLines_bodyLines body, mem_ofLines (by decide)] at hmem
  rcases hmem with hmem | hmem
  · exact hmem
  cases hfirst : Split.first equals (bodyLines body).2 with
  | none => exact absurd hmem (Split.first_eq_none.mp hfirst)
  | some e =>
    have hval := ((readsLines_iff_entriesFirst body).mp h).2 e.1 e.2 hfirst
    obtain ⟨line, hline, hfirst'⟩ := List.mem_filterMap.mp (mem_of_lastValue hval)
    rw [first_dropCr] at hfirst'
    obtain ⟨p, hp, -⟩ := Option.map_eq_some_iff.mp hfirst'
    refine ⟨line, hline, ?_⟩
    rw [(Split.first_eq_some.mp hp).1]
    simp

/-- A blank line in front of the first entry becomes a part of its key. -/
theorem not_mem_of_readsLines_ignoresLines (h : ReadsLines body) (hignores : IgnoresLines body) :
    equals ∉ body := by
  intro hmem
  have hadds : AddsLine [] body ([newline] ++ body) := .before (s := []) (t := body) (.inl rfl)
  obtain ⟨e, he, hkey⟩ := exists_glued (p := [newline]) (.head _) (h.exists_line hmem)
  obtain ⟨val, hval⟩ := exists_lastValue he
  have hsame := hignores [] _ List.not_mem_nil List.not_mem_nil hadds e.1
  rw [getElem?_respValMap_append (by decide), hval, h e.1] at hsame
  exact newline_not_mem_key (mem_of_lastValue hsame.symm) hkey

theorem respValMap_of_not_mem (h : equals ∉ body) : respValMap body = ∅ := by
  rw [respValMap, readValues_eq, Split.first_eq_none.mpr h]

theorem AddsLine.not_mem {line body body' : Bytes} (h : AddsLine line body body')
    (hbody : equals ∉ body) (hline : equals ∉ line) : equals ∉ body' := by
  have hne : equals ≠ newline := by decide
  cases h with
  | @before s t _ =>
    rw [List.mem_append, not_or] at hbody
    simp [hbody, hline, hne]
  | last _ _ => simp [hbody, hline, hne]

/-- The map has the entries of the lines exactly if no line with `=` stands behind one without and
the part behind the last line break says nothing new; that lines without `=` make no difference,
too, holds only where there is no `=` at all. -/
theorem readsLines_iff (body : Bytes) :
    (ReadsLines body ↔ EntriesFirst (bodyLines body).1 ∧
      ∀ key val, Split.first equals (bodyLines body).2 = some (key, val) →
        lastValue (lineEntries (bodyLines body).1) key = some val) ∧
    (ReadsLines body ∧ IgnoresLines body ↔ equals ∉ body) := by
  refine ⟨readsLines_iff_entriesFirst body, ?_, fun h => ⟨?_, ?_⟩⟩
  · exact fun h => not_mem_of_readsLines_ignoresLines h.1 h.2
  · rw [← ofLines_bodyLines body, mem_ofLines (by decide), not_or] at h
    have hnone : ∀ line ∈ (bodyLines body).1, equals ∉ line := fun l hl hmem => h.1 ⟨l, hl, hmem⟩
    refine (readsLines_iff_entriesFirst body).mpr ⟨?_, fun key val hfirst => ?_⟩
    · exact List.pairwise_of_forall_mem_list fun a _ b hb hmem => absurd hmem (hnone b hb)
    · rw [Split.first_eq_none.mpr h.2] at hfirst
      cases hfirst
  · intro line body' hline _ hadds key
    rw [respValMap_of_not_mem h, respValMap_of_not_mem (hadds.not_mem h hline)]

/-- A blank line, and the last line without a line break. -/
theorem not_readsLines_blankLine :
    ¬(ReadsLines (ascii "\nAuth=x\n") ∧ IgnoresLines (ascii "\nAuth=x\n")) ∧
      ¬(ReadsLines (ascii "Auth=x") ∧ IgnoresLines (ascii "Auth=x")) := by
  constructor
  · rintro ⟨h, -⟩
    have hauth := h (ascii "Auth")
    rw [getElem?_respValMap] at hauth
    exact absurd hauth (by decide)
  · rintro ⟨h, -⟩
    have hauth := h (ascii "Auth")
    rw [getElem?_respValMap] at hauth
    exact absurd hauth (by decide)

end Map

/-! ## Failed logins -/

/-- The response passes the checks in front of the first update. -/
def Accepted (m : ResponseValues) (start : Int64) (auth : Bytes) (expires : Int64) : Prop :=
  m[ascii "Error"]? = none ∧ m[ascii "Auth"]? = some auth ∧ expiresAt m start auth = .ok expires

/-- The response has the fields that are checked between the updates. -/
def Complete (m : ResponseValues) (request : LoginRequest) : Prop :=
  (request.viaPassword = true ∨ request.isAccessToken = true → m[ascii "Token"]? ≠ none) ∧
    (request.isAccessToken = true → m[ascii "Email"]? ≠ none)

/-- The updates write what is there already. -/
def Unseen (store : γ → CookieKey → Cookie → γ) (m : ResponseValues) (request : LoginRequest)
    (cookie : Cookie) (s : LoginApi γ) : Prop :=
  store s.cache (request.service, request.app) cookie = s.cache ∧
    ∀ token, m[ascii "Token"]? = some token → s.email = request.email ∧ s.token = token

section Failures

variable {store : γ → CookieKey → Cookie → γ} {m : ResponseValues} {request : LoginRequest}
  {s t : LoginApi γ} {auth : Bytes}

/-- A call that throws leaves the state as it was. -/
def FailsClean (s : LoginApi γ) (o : Except LoginError Bytes × LoginApi γ) : Prop :=
  (∃ e, o.1 = .error e) → o.2 = s

theorem failsClean_error {e : LoginError} : FailsClean s (.error e, t) ↔ t = s :=
  ⟨fun h => h ⟨e, rfl⟩, fun h _ => h⟩

theorem failsClean_ok : FailsClean s (.ok auth, t) := by
  rintro ⟨e, he⟩
  cases he

theorem failsClean_updateEmail (s t : LoginApi γ) : FailsClean s (updateEmail m request auth t) ↔
    (request.isAccessToken = true → m[ascii "Email"]? ≠ none) ∨ t = s := by
  rw [updateEmail]
  split
  · next haccess =>
    cases hemail : m[ascii "Email"]? with
    | none => simp [failsClean_error, haccess]
    | some email => exact iff_of_true failsClean_ok (.inl fun _ => by simp)
  · next haccess => exact iff_of_true failsClean_ok (.inl fun h => absurd h haccess)

theorem setToken_eq_iff {email token : Bytes} {cache : γ} :
    ({ s with cache } : LoginApi γ).setToken email token = s ↔
      cache = s.cache ∧ s.email = email ∧ s.token = token := by
  obtain ⟨email', token', cache'⟩ := s
  simp only [setToken, LoginApi.mk.injEq]
  exact ⟨fun ⟨he, ht, hc⟩ => ⟨hc, he.symm, ht.symm⟩, fun ⟨hc, he, ht⟩ => ⟨he.symm, ht.symm, hc⟩⟩

theorem setCache_eq_iff {cache : γ} : ({ s with cache } : LoginApi γ) = s ↔ cache = s.cache := by
  obtain ⟨email', token', cache'⟩ := s
  simp

theorem failsClean_updateToken (cookie : Cookie) :
    FailsClean s (updateToken m request auth
        { s with cache := store s.cache (request.service, request.app) cookie }) ↔
      Complete m request ∨ Unseen store m request cookie s := by
  rw [updateToken]
  split
  · next hkind =>
    have hkind : request.viaPassword = true ∨ request.isAccessToken = true := by
      simpa using hkind
    cases htoken : m[ascii "Token"]? with
    | none => simp [failsClean_error, setCache_eq_iff, Complete, Unseen, hkind, htoken]
    | some token => simp [failsClean_updateEmail, setToken_eq_iff, Complete, Unseen, htoken]
  · next hkind =>
    have hkind : ¬(request.viaPassword = true ∨ request.isAccessToken = true) := by
      simpa using hkind
    obtain ⟨hpassword, haccess⟩ := not_or.mp hkind
    rw [failsClean_updateEmail]
    exact iff_of_true (.inl fun h => absurd h haccess)
      (.inl ⟨fun h => absurd h hkind, fun h => absurd h haccess⟩)

/-- **A failed login changes nothing** exactly if the response was rejected in front of the first
update, or has all fields that are checked later, or the updates were not seen. -/
theorem failed_unchanged_iff (store : γ → CookieKey → Cookie → γ) (statusCode : Int) (body : Bytes)
    (request : LoginRequest) (start : Int64) (s : LoginApi γ) :
    ((∃ e, (handleResponse store statusCode body request start s).1 = .error e) →
        (handleResponse store statusCode body request start s).2 = s) ↔
      ∀ auth expires, Accepted (respValMap body) start auth expires →
        Complete (respValMap body) request ∨
          Unseen store (respValMap body) request ⟨auth, expires⟩ s := by
  change FailsClean s _ ↔ _
  rw [handleResponse]
  generalize respValMap body = m
  cases herror : m[ascii "Error"]? with
  | some error =>
    refine iff_of_true (failsClean_error.mpr rfl) fun auth expires h => ?_
    exact absurd (h.1.symm.trans herror) (by simp)
  | none =>
    dsimp only
    cases hauth : m[ascii "Auth"]? with
    | none =>
      refine iff_of_true (failsClean_error.mpr rfl) fun auth expires h => ?_
      exact absurd (h.2.1.symm.trans hauth) (by simp)
    | some auth =>
      dsimp only
      cases hexpires : expiresAt m start auth with
      | error e =>
        refine iff_of_true (failsClean_error.mpr rfl) fun auth' expires h => ?_
        obtain rfl := Option.some.inj (h.2.1.symm.trans hauth)
        exact absurd (h.2.2.symm.trans hexpires) (by simp)
      | ok expires =>
        dsimp only
        rw [failsClean_updateToken]
        constructor
        · rintro h auth' expires' ⟨-, hauth', hexpires'⟩
          obtain rfl := Option.some.inj (hauth'.symm.trans hauth)
          obtain rfl := Except.ok.inj (hexpires'.symm.trans hexpires)
          exact h
        · exact fun h => h auth expires ⟨herror, hauth, hexpires⟩

/-- A login by password whose response has a cookie but no token: the cookie is in the cache. -/
theorem not_failed_unchanged_noToken :
    let request : LoginRequest := ⟨ascii "ac2dm", ascii "app", true, ascii "a@b", false⟩
    let store (cache : List (CookieKey × Cookie)) key cookie := (key, cookie) :: cache
    let s : LoginApi (List (CookieKey × Cookie)) := ⟨[], [], []⟩
    ¬((∃ e, (handleResponse store 200 (ascii "Auth=x\n") request 0 s).1 = .error e) →
      (handleResponse store 200 (ascii "Auth=x\n") request 0 s).2 = s) := by
  intro request store s h
  have hget (key : Bytes) {o : Option Bytes}
      (ho : lastValue (readEntries [] (bodyLines (ascii "Auth=x\n")).1) key = o) :
      (respValMap (ascii "Auth=x\n"))[key]? = o := (getElem?_respValMap ..).trans ho
  have herror := hget (ascii "Error") (o := none) (by decide)
  have hauth := hget (ascii "Auth") (o := some (ascii "x")) (by decide)
  have hexpires := hget (ascii "Expires") (o := none) (by decide)
  have htoken := hget (ascii "Token") (o := none) (by decide)
  have hoauth2 : (ascii "oauth2:").isPrefixOf (ascii "x") = false := by decide
  change FailsClean s _ at h
  simp only [handleResponse, herror, hauth, expiresAt, hexpires, hoauth2] at h
  rcases (failsClean_updateToken _).mp h with hcomplete | hunseen
  · exact hcomplete.1 (.inl rfl) htoken
  · exact absurd hunseen.1 (List.cons_ne_nil _ _)

end Failures

end LoginApi

end McpeLauncher.PlayApi
