import McpeLauncher.Client.Base64
import McpeLauncher.Lib.JsonTree
import McpeLauncher.Lib.Utf8

/-!
# The patch of the device tier list

`VibrantVisualsPatch::apply` raises the entry of the renderer in `tiers.bin`, the list of the game,
which is a JSON document in base64. The JSON library is a pair of functions that are inverse on
well-formed documents.
-/

namespace McpeLauncher.Client.VibrantVisualsPatch
open JsonTree

abbrev Tree := JsonTree (List UInt8)

/-- `parse` and `dump`; an error is the text of the exception. -/
structure JsonText where
  parse : List UInt8 → Except String Tree
  dump : Tree → Except String (List UInt8)

/-- A text is parsed to a well-formed document, and what is written of one is parsed to it. -/
structure JsonText.Inverse (J : JsonText) : Prop where
  wellFormed : ∀ {text root}, J.parse text = .ok root → root.WellFormed
  parse_dump : ∀ {root text}, root.WellFormed → J.dump root = .ok text → J.parse text = .ok root

/-- The messages in the log. -/
inductive Message
  | noDeviceTierList
  | couldNotDecode (what : String)
  | couldNotParse (what : String)
  | unexpectedFormat
  | alreadyWhitelisted (tier : Int)
  | couldNotEncode (what : String)
  | couldNotWrite
  | failedToWrite
  | whitelisted

/-- How the final write ends; a write that fails leaves some content. -/
inductive Output
  | notOpen
  | failed (content : List UInt8)
  | written

/-! ## The code -/

def gpuName : List UInt8 := Utf8.encode "gpu".toList

def tierName : List UInt8 := Utf8.encode "tier".toList

def hashName : List UInt8 := Utf8.encode "hash".toList

/-- The conversion of a 64 bit integer to `int`. -/
def toInt (n : Int) : Int := n.bmod UInt32.size

def tierOf : Tree → Int
  | .integer n => toInt n
  | .object members =>
    match lookup tierName members with
    | some (.integer n) => toInt n
    | _ => 0
  | _ => 0

/-- An entry that is there, with the tier raised. -/
def raisedEntry : Tree → Tree
  | .object fields => .object (assign fields tierName (.integer 5))
  | _ => .integer 5

/-- A new entry, in the encoding that the current version of the game uses. -/
def addedEntry (gpu : List (List UInt8 × Tree)) : Tree :=
  if gpu.any (·.2.isObject) then
    .object (assign (assign [] tierName (.integer 5)) hashName (.integer 2147483646))
  else .integer 5

/-- The change of the document. -/
def whitelist (renderer : List UInt8) : Tree → Except Message Tree
  | .object members =>
    match lookup gpuName members with
    | some (.object gpu) =>
      match lookup renderer gpu with
      | some existing =>
        if tierOf existing ≥ 4 then .error (.alreadyWhitelisted (tierOf existing))
        else .ok (.object (assign members gpuName
          (.object (assign gpu renderer (raisedEntry existing)))))
      | none => .ok (.object (assign members gpuName
          (.object (assign gpu renderer (addedEntry gpu)))))
    | _ => .error .unexpectedFormat
  | _ => .error .unexpectedFormat

section Files
variable (outside : UInt8 → UInt8) (J : JsonText)

/-- The document in a file. -/
def load (encoded : List UInt8) : Except Message Tree :=
  match Base64.decode outside [13, 10] encoded with
  | .error what => .error (.couldNotDecode what)
  | .ok decoded =>
    match J.parse decoded with
    | .error what => .error (.couldNotParse what)
    | .ok root => .ok root

/-- The file for a document. -/
def store (root : Tree) : Except Message (List UInt8) :=
  match J.dump root with
  | .error what => .error (.couldNotEncode what)
  | .ok text => .ok (Base64.encode true text)

/-- The content of the new file. -/
def patch (renderer encoded : List UInt8) : Except Message (List UInt8) := do
  let root ← load outside J encoded
  let root ← whitelist renderer root
  store J root

/-- The last message of `apply`, and the file after it. A file that cannot be opened is `none`. -/
def apply (renderer : List UInt8) (out : Output) (file : Option (List UInt8)) :
    Option Message × Option (List UInt8) :=
  if renderer = [] then (none, file)
  else
    match file with
    | none => (some .noDeviceTierList, none)
    | some encoded =>
      match patch outside J renderer encoded with
      | .error message => (some message, some encoded)
      | .ok newEncoded =>
        match out with
        | .notOpen => (some .couldNotWrite, some encoded)
        | .failed content => (some .failedToWrite, some content)
        | .written => (some .whitelisted, some newEncoded)

end Files

/-! ## The changed document -/

/-- What an entry becomes: an object keeps its other fields, anything else becomes an integer. -/
def Raised (entry : Tree) : Tree → Prop
  | .object fields => ∃ fields', entry = .object fields' ∧
      ∀ name ≠ tierName, lookup name fields' = lookup name fields
  | _ => ∃ n, entry = .integer n

/-- A new entry is an object if another one is. -/
def Added (entry : Tree) (gpu : List (List UInt8 × Tree)) : Prop :=
  entry.isObject = true ↔ ∃ name value, lookup name gpu = some value ∧ value.isObject = true

def EntryFor (gpu : List (List UInt8 × Tree)) (renderer : List UInt8) (entry : Tree) : Prop :=
  match lookup renderer gpu with
  | some existing => Raised entry existing
  | none => Added entry gpu

/-- `root'` is `root` except for the entry of the renderer in the list, which has a tier of at least
4 in `root'`. -/
def Patched (renderer : List UInt8) (root root' : Tree) : Prop :=
  ∃ gpu gpu' entry, root.find gpuName = some (.object gpu) ∧
    root'.find gpuName = some (.object gpu') ∧
    (∀ name ≠ gpuName, root'.find name = root.find name) ∧
    (∀ name ≠ renderer, lookup name gpu' = lookup name gpu) ∧
    lookup renderer gpu' = some entry ∧ 4 ≤ tierOf entry ∧ EntryFor gpu renderer entry

section Document
variable {gpu : List (List UInt8 × Tree)} {renderer : List UInt8} {root root' : Tree}

theorem toInt_five : toInt 5 = 5 := by decide

theorem wellFormed_five : WellFormed (κ := List UInt8) (.integer 5) :=
  .integer (by decide) (by decide)

theorem raisedEntry_spec (h : existing.WellFormed) : (raisedEntry existing).WellFormed ∧
    tierOf (raisedEntry existing) = 5 ∧ Raised (raisedEntry existing) existing := by
  cases existing with
  | object fields =>
    refine ⟨h.assign tierName wellFormed_five, ?_, _, rfl,
      fun name hname => lookup_assign_of_ne fields _ hname⟩
    rw [raisedEntry, tierOf, lookup_assign_self]
    exact toInt_five
  | null => exact ⟨wellFormed_five, toInt_five, 5, rfl⟩
  | bool b => exact ⟨wellFormed_five, toInt_five, 5, rfl⟩
  | integer n => exact ⟨wellFormed_five, toInt_five, 5, rfl⟩
  | real bits => exact ⟨wellFormed_five, toInt_five, 5, rfl⟩
  | string s => exact ⟨wellFormed_five, toInt_five, 5, rfl⟩
  | array items => exact ⟨wellFormed_five, toInt_five, 5, rfl⟩

theorem addedEntry_spec (hsorted : Sorted gpu) : (addedEntry gpu).WellFormed ∧
    tierOf (addedEntry gpu) = 5 ∧ Added (addedEntry gpu) gpu := by
  have hany : gpu.any (·.2.isObject) = true ↔
      ∃ name value, lookup name gpu = some value ∧ value.isObject = true := by
    rw [List.any_eq_true]
    constructor
    · rintro ⟨m, hm, hobject⟩
      exact ⟨m.1, m.2, hsorted.lookup_of_mem hm, hobject⟩
    · rintro ⟨name, value, hget, hobject⟩
      exact ⟨(name, value), mem_of_lookup hget, hobject⟩
  unfold addedEntry Added
  rw [← hany]
  split
  · next hobject =>
    have hnil : WellFormed (κ := List UInt8) (.object []) :=
      .object List.Pairwise.nil fun m hm => absurd hm List.not_mem_nil
    refine ⟨(hnil.assign tierName wellFormed_five).assign hashName
      (.integer (by decide) (by decide)), ?_, iff_of_true rfl hobject⟩
    rw [tierOf, lookup_assign_of_ne _ _ (by decide), lookup_assign_self]
    exact toInt_five
  · next hobject =>
    exact ⟨wellFormed_five, toInt_five, iff_of_false Bool.false_ne_true hobject⟩

/-- The only change is to the entry of the renderer. -/
theorem whitelist_eq_ok (hroot : root.WellFormed) (h : whitelist renderer root = .ok root') :
    ∃ members gpu entry, root = .object members ∧ lookup gpuName members = some (.object gpu) ∧
      root' = .object (assign members gpuName (.object (assign gpu renderer entry))) ∧
      entry.WellFormed ∧ tierOf entry = 5 ∧ EntryFor gpu renderer entry := by
  unfold whitelist at h
  split at h
  · next members =>
    split at h
    · next gpu hgpu =>
      have hwf := hroot.of_lookup hgpu
      split at h
      · next existing hget =>
        split at h
        · cases h
        · cases h
          obtain ⟨hentry, htier, hraised⟩ := raisedEntry_spec (hwf.of_lookup hget)
          exact ⟨members, gpu, _, rfl, hgpu, rfl, hentry, htier, by rwa [EntryFor, hget]⟩
      · next hget =>
        cases h
        obtain ⟨hentry, htier, hadded⟩ := addedEntry_spec hwf.sorted
        exact ⟨members, gpu, _, rfl, hgpu, rfl, hentry, htier, by rwa [EntryFor, hget]⟩
    · cases h
  · cases h

theorem whitelist_patched (hroot : root.WellFormed) (h : whitelist renderer root = .ok root') :
    root'.WellFormed ∧ Patched renderer root root' := by
  obtain ⟨members, gpu, entry, rfl, hget, rfl, hentry, htier, hfor⟩ := whitelist_eq_ok hroot h
  refine ⟨hroot.assign gpuName ((hroot.of_lookup hget).assign renderer hentry), gpu, _, entry, hget,
    lookup_assign_self _ _ _, fun name hname => lookup_assign_of_ne _ _ hname,
    fun name hname => lookup_assign_of_ne _ _ hname, lookup_assign_self _ _ _, ?_, hfor⟩
  rw [htier]
  decide

/-- A changed document is not changed again. -/
theorem whitelist_again (hroot : root.WellFormed) (h : whitelist renderer root = .ok root') :
    whitelist renderer root' = .error (.alreadyWhitelisted 5) := by
  obtain ⟨members, gpu, entry, rfl, -, rfl, -, htier, -⟩ := whitelist_eq_ok hroot h
  simp only [whitelist, lookup_assign_self, htier]
  rfl

end Document

/-! ## The changed file -/

section
variable {outside : UInt8 → UInt8} {J : JsonText} {renderer encoded : List UInt8} {root : Tree}

/-- What is stored is loaded again. -/
theorem load_of_store (hJ : J.Inverse) (hroot : root.WellFormed) (h : store J root = .ok encoded) :
    load outside J encoded = .ok root := by
  unfold store at h
  split at h
  · cases h
  · next text hdump =>
    cases h
    simp only [load, Base64.decode_encode, hJ.parse_dump hroot hdump]

theorem wellFormed_of_load (hJ : J.Inverse) (h : load outside J encoded = .ok root) :
    root.WellFormed := by
  unfold load at h
  split at h
  · cases h
  · split at h
    · cases h
    · next hparse =>
      cases h
      exact hJ.wellFormed hparse

theorem patch_eq_ok (hJ : J.Inverse) (h : patch outside J renderer encoded = .ok newEncoded) :
    ∃ root root', load outside J encoded = .ok root ∧ load outside J newEncoded = .ok root' ∧
      Patched renderer root root' ∧
      patch outside J renderer newEncoded = .error (.alreadyWhitelisted 5) := by
  unfold patch at h
  cases hload : load outside J encoded with
  | error message => rw [hload] at h; cases h
  | ok root =>
    rw [hload] at h
    cases hwhite : whitelist renderer root with
    | error message => simp only [hwhite, bind, Except.bind] at h; cases h
    | ok root' =>
      simp only [hwhite, bind, Except.bind] at h
      have hroot := wellFormed_of_load hJ hload
      obtain ⟨hroot', hpatched⟩ := whitelist_patched hroot hwhite
      have hload' : load outside J newEncoded = .ok root' := load_of_store hJ hroot' h
      refine ⟨root, root', rfl, hload', hpatched, ?_⟩
      simp only [patch, hload', whitelist_again hroot hwhite, bind, Except.bind]

theorem apply_of_error (h : patch outside J renderer encoded = .error message) (out : Output) :
    (apply outside J renderer out (some encoded)).2 = some encoded := by
  unfold apply
  split
  · rfl
  · simp only [h]

/-- **The patch of the tier list.** If the final write succeeds, the file is left as it is, or it
decodes to a document changed only in the entry of the renderer. Applied again, however the final
write would end, the patch leaves the file as it is. -/
theorem apply_patches (outside : UInt8 → UInt8) (hJ : J.Inverse) (renderer : List UInt8)
    (file : Option (List UInt8)) :
    ((apply outside J renderer .written file).2 = file ∨
      ∃ old new root root', file = some old ∧
        (apply outside J renderer .written file).2 = some new ∧
        load outside J old = .ok root ∧ load outside J new = .ok root' ∧
        Patched renderer root root') ∧
    ∀ out, (apply outside J renderer out (apply outside J renderer .written file).2).2 =
      (apply outside J renderer .written file).2 := by
  by_cases hrenderer : renderer = []
  · have hsame : ∀ out file, (apply outside J renderer out file).2 = file := fun out file => by
      simp only [apply, if_pos hrenderer]
    exact ⟨.inl (hsame _ _), fun out => hsame _ _⟩
  cases file with
  | none =>
    have hsame : ∀ out, (apply outside J renderer out none).2 = none := fun out => by
      simp only [apply, if_neg hrenderer]
    rw [hsame]
    exact ⟨.inl rfl, hsame⟩
  | some encoded =>
    cases hpatch : patch outside J renderer encoded with
    | error message =>
      rw [apply_of_error hpatch]
      exact ⟨.inl rfl, apply_of_error hpatch⟩
    | ok newEncoded =>
      have hnew : (apply outside J renderer .written (some encoded)).2 = some newEncoded := by
        simp only [apply, if_neg hrenderer, hpatch]
      obtain ⟨root, root', hold, hload, hpatched, hagain⟩ := patch_eq_ok hJ hpatch
      rw [hnew]
      exact ⟨.inr ⟨encoded, newEncoded, root, root', rfl, rfl, hold, hload, hpatched⟩,
        apply_of_error hagain⟩

end

/-! ## A list with one entry -/

def mesa : List UInt8 := Utf8.encode "Mesa".toList

def mesaList (tier : Int) : Tree := .object [(gpuName, .object [(mesa, .integer tier)])]

def mesaText (tier : Char) : List UInt8 :=
  Utf8.encode ("\x7b\"gpu\":\x7b\"Mesa\":".toList ++ tier :: "\x7d\x7d".toList)

/-- A JSON library for the list with the tiers 2 and 5. -/
def mesaJson : JsonText where
  parse text :=
    if text = mesaText '2' then .ok (mesaList 2)
    else if text = mesaText '5' then .ok (mesaList 5)
    else .error "parse error"
  dump
    | .object [(g, .object [(r, .integer n)])] =>
      if g = gpuName ∧ r = mesa ∧ n = 2 then .ok (mesaText '2')
      else if g = gpuName ∧ r = mesa ∧ n = 5 then .ok (mesaText '5')
      else .error "type error"
    | _ => .error "type error"

theorem mesaText_ne : mesaText '5' ≠ mesaText '2' := by decide

theorem mesaList_wellFormed (hlow : 0 ≤ tier) (hhigh : tier ≤ 5) : (mesaList tier).WellFormed := by
  have htier : WellFormed (κ := List UInt8) (.integer tier) := .integer (by omega) (by omega)
  have hentry : WellFormed (.object [(mesa, .integer tier)]) :=
    .object (List.pairwise_singleton _ _) fun m hm => by cases List.mem_singleton.mp hm; exact htier
  exact .object (List.pairwise_singleton _ _)
    fun m hm => by cases List.mem_singleton.mp hm; exact hentry

theorem mesaJson_inverse : mesaJson.Inverse where
  wellFormed h := by
    simp only [mesaJson] at h
    split at h
    · cases h
      exact mesaList_wellFormed (by decide) (by decide)
    · split at h
      · cases h
        exact mesaList_wellFormed (by decide) (by decide)
      · cases h
  parse_dump _ h := by
    simp only [mesaJson] at h ⊢
    split at h
    · next g r n =>
      split at h
      · next heq =>
        obtain ⟨rfl, rfl, rfl⟩ := heq
        cases h
        rw [if_pos rfl]
        rfl
      · split at h
        · next heq =>
          obtain ⟨rfl, rfl, rfl⟩ := heq
          cases h
          rw [if_neg mesaText_ne, if_pos rfl]
          rfl
        · cases h
    · cases h

/-- The tier 2 of an entry becomes 5. -/
theorem apply_patches_mesa : ∃ new,
    (apply (fun _ => 255) mesaJson mesa .written (some (Base64.encode true (mesaText '2')))).2 =
      some new ∧ load (fun _ => 255) mesaJson new = .ok (mesaList 5) ∧
      ∀ out, (apply (fun _ => 255) mesaJson mesa out (some new)).2 = some new := by
  have hold : load (fun _ => 255) mesaJson (Base64.encode true (mesaText '2')) =
      .ok (mesaList 2) := by
    simp only [load, Base64.decode_encode, mesaJson, if_true]
  have hwhite : whitelist mesa (mesaList 2) = .ok (mesaList 5) := rfl
  have hstore : store mesaJson (mesaList 5) = .ok (Base64.encode true (mesaText '5')) := rfl
  have hnew : (apply (fun _ => 255) mesaJson mesa .written
      (some (Base64.encode true (mesaText '2')))).2 = some (Base64.encode true (mesaText '5')) := by
    have hmesa : mesa ≠ [] := by decide
    simp only [apply, if_neg hmesa, patch, hold, hwhite, hstore, bind, Except.bind]
  refine ⟨_, hnew, ?_, fun out => ?_⟩
  · exact load_of_store mesaJson_inverse (mesaList_wellFormed (by decide) (by decide)) hstore
  · have hagain := (apply_patches (fun _ => 255) mesaJson_inverse mesa
      (some (Base64.encode true (mesaText '2')))).2 out
    rwa [hnew] at hagain

end McpeLauncher.Client.VibrantVisualsPatch
