import McpeLauncher.Lib.Decimal
import McpeLauncher.Lib.Split
import McpeLauncher.Lib.UnorderedMap

/-!
# Property lists

`property_list`: registered properties have a type and are parsed, all others are kept as texts. A
file has one property a line, with a separator between its name and its value.
-/

namespace McpeLauncher.Properties

abbrev Bytes := List UInt8

def newline : UInt8 := 10
def carriageReturn : UInt8 := 13
def hash : UInt8 := 35
def equals : UInt8 := 61

/-- The bytes of an ASCII text. -/
def ascii (s : String) : Bytes := s.toList.map fun c => UInt8.ofNat c.toNat

inductive PropertyError
  | stoi (e : Decimal.ConversionError)
  | invalidArgument (what : String)
  deriving DecidableEq

/-- The types of properties; properties with floating-point numbers are left out. -/
inductive PropertyType
  | string
  | int
  | bool
  deriving DecidableEq

/-- A `property` with its value. -/
inductive Property
  | string (value : Bytes)
  | int (value : Int32)
  | bool (value : Bool)
  deriving DecidableEq

/-- The text up to the first zero. -/
def cStr (s : Bytes) : Bytes := s.takeWhile (· ≠ 0)

def toLower (b : UInt8) : UInt8 := if 65 ≤ b ∧ b ≤ 90 then b + 32 else b

/-- `strcasecmp` says that the texts are equal. -/
def equalsIgnoringCase (s t : Bytes) : Bool := s.map toLower = t.map toLower

namespace Property

def type : Property → PropertyType
  | string _ => .string
  | int _ => .int
  | bool _ => .bool

def parseBool (value : Bytes) : Except PropertyError Bool :=
  let v := cStr value
  if v = ascii "1" || equalsIgnoringCase v (ascii "true") || equalsIgnoringCase v (ascii "on") ||
      equalsIgnoringCase v (ascii "yes") then .ok true
  else if v = ascii "0" || equalsIgnoringCase v (ascii "false") ||
      equalsIgnoringCase v (ascii "off") || equalsIgnoringCase v (ascii "no") then .ok false
  else .error (.invalidArgument "Invalid boolean value")

/-- `parse_value`: the property with the new value. -/
def parseValue (p : Property) (value : Bytes) : Except PropertyError Property :=
  match p with
  | string _ => .ok (.string value)
  | int _ =>
    match Decimal.stoi value with
    | .error e => .error (.stoi e)
    | .ok n => .ok (.int (Int32.ofInt n))
  | bool _ => (parseBool value).map .bool

def serializeValue : Property → Bytes
  | string value => value
  | int value => Decimal.intText value.toInt
  | bool value => if value then ascii "true" else ascii "false"

/-- A value is parsed from its own text. -/
theorem parseValue_serializeValue {p q : Property} (h : q.type = p.type) :
    q.parseValue p.serializeValue = .ok p := by
  cases p with
  | string value =>
    cases q with
    | string _ => rfl
    | int _ => cases h
    | bool _ => cases h
  | int value =>
    cases q with
    | string _ => cases h
    | int _ =>
      have hlow : -2147483648 ≤ value.toInt := value.le_toInt
      have hhigh : value.toInt ≤ 2147483647 := Int.le_of_lt_add_one value.toInt_lt
      rw [parseValue, serializeValue, Decimal.stoi_intText ⟨hlow, hhigh⟩]
      exact congrArg (fun n => Except.ok (Property.int n)) (Int32.ofInt_toInt value)
    | bool _ => cases h
  | bool value =>
    cases q with
    | string _ => cases h
    | int _ => cases h
    | bool _ => cases value <;> rfl

end Property

structure PropertyList where
  prop : UnorderedMap Bytes Property := .empty
  unknownProps : UnorderedMap Bytes Bytes := .empty
  sep : UInt8 := equals

namespace PropertyList

def registerProperty (p : PropertyList) (name : Bytes) (q : Property) : PropertyList :=
  { p with prop := p.prop.insert name q }

def setProperty (p : PropertyList) (name value : Bytes) : Except PropertyError PropertyList :=
  match p.prop.find name with
  | none => .ok { p with unknownProps := p.unknownProps.assign name value }
  | some q =>
    match q.parseValue value with
    | .error e => .error e
    | .ok q => .ok { p with prop := p.prop.assign name q }

/-- One line of `load`. -/
def loadLine (p : PropertyList) (line : Bytes) : Except PropertyError PropertyList :=
  let line := line.filter (· ≠ carriageReturn)
  if line.head? = some hash then .ok p
  else
    match Split.first p.sep line with
    | none => .ok p
    | some (name, value) => p.setProperty name value

def load (p : PropertyList) (stream : Bytes) : Except PropertyError PropertyList :=
  match _h : Split.getline newline stream with
  | none => .ok p
  | some (line, rest) =>
    match p.loadLine line with
    | .error e => .error e
    | .ok p => load p rest
termination_by stream.length
decreasing_by exact Split.length_of_getline _h

def entryText (p : PropertyList) (name value : Bytes) : Bytes := name ++ p.sep :: value ++ [newline]

def save (p : PropertyList) : Bytes :=
  (p.prop.entries.flatMap fun e => p.entryText e.1 e.2.serializeValue) ++
    p.unknownProps.entries.flatMap fun e => p.entryText e.1 e.2

/-! ## Reading back -/

/-- A name that a line can begin with: the separator is behind it, and the line is no comment. -/
structure GoodName (sep : UInt8) (name : Bytes) : Prop where
  sep : sep ∉ name
  newline : newline ∉ name
  carriageReturn : carriageReturn ∉ name
  hash : name.head? ≠ some hash

/-- A text within a line. -/
structure GoodText (value : Bytes) : Prop where
  newline : newline ∉ value
  carriageReturn : carriageReturn ∉ value

/-- A separator that leaves the lines as they are; a line with an empty name begins with it. -/
structure GoodSep (sep : UInt8) (names : List Bytes) : Prop where
  newline : sep ≠ newline
  carriageReturn : sep ≠ carriageReturn
  hash : sep = hash → [] ∉ names

/-- The names in a list. -/
def names (p : PropertyList) : List Bytes :=
  p.prop.entries.map (·.1) ++ p.unknownProps.entries.map (·.1)

/-- A list that can be saved. -/
structure Saveable (p : PropertyList) : Prop where
  names : ∀ name ∈ p.names, GoodName p.sep name
  disjoint : (p.prop.entries.map (·.1)).Disjoint (p.unknownProps.entries.map (·.1))
  strings : ∀ e ∈ p.prop.entries, ∀ value, e.2 = .string value → GoodText value
  unknown : ∀ e ∈ p.unknownProps.entries, GoodText e.2

/-- The same names are registered with the same types, and there are no other unknown properties. -/
structure SameRegistrations (p q : PropertyList) : Prop where
  sep : q.sep = p.sep
  types : ∀ name, (q.prop.find name).map Property.type = (p.prop.find name).map Property.type
  unknown : ∀ name, p.unknownProps.find name = none → q.unknownProps.find name = none

/-- A registration in both lists; the first one of a name counts. -/
theorem SameRegistrations.registerProperty {p q : PropertyList} (h : SameRegistrations p q)
    (name : Bytes) {r r' : Property} (htype : r'.type = r.type) :
    SameRegistrations (p.registerProperty name r) (q.registerProperty name r') := by
  refine ⟨h.sep, fun name' => ?_, h.unknown⟩
  rw [PropertyList.registerProperty, PropertyList.registerProperty, UnorderedMap.find_insert,
    UnorderedMap.find_insert]
  split
  · have hfind := h.types name
    cases hp : p.prop.find name with
    | none =>
      rw [hp, Option.map_none, Option.map_eq_none_iff] at hfind
      rw [hfind]
      exact congrArg some htype
    | some v =>
      rw [hp] at hfind
      obtain ⟨w, hw, htypes⟩ := Option.map_eq_some_iff.mp hfind
      rw [hw]
      exact congrArg some htypes
  · exact h.types name'

/-- Lists in which properties of the same names and types are registered in the same order. -/
theorem sameRegistrations_foldl (sep : UInt8) {l : List (Bytes × Property × Property)}
    (htypes : ∀ e ∈ l, e.2.2.type = e.2.1.type) :
    SameRegistrations
      (l.foldl (fun p e => p.registerProperty e.1 e.2.1) { sep })
      (l.foldl (fun p e => p.registerProperty e.1 e.2.2) { sep }) := by
  have hrun : ∀ p q, SameRegistrations p q → SameRegistrations
      (l.foldl (fun p e => p.registerProperty e.1 e.2.1) p)
      (l.foldl (fun p e => p.registerProperty e.1 e.2.2) q) := by
    induction l with
    | nil => exact fun p q h => h
    | cons e l ih =>
      obtain ⟨htype, htypes⟩ := List.forall_mem_cons.mp htypes
      exact fun p q h => ih htypes _ _ (h.registerProperty e.1 htype)
  exact hrun _ _ ⟨rfl, fun _ => rfl, fun _ => id⟩

section Load

variable {p q : PropertyList} {name value : Bytes} {r : Property}

theorem load_eq (p : PropertyList) (stream : Bytes) :
    p.load stream =
      match Split.getline newline stream with
      | none => .ok p
      | some (line, rest) =>
        match p.loadLine line with
        | .error e => .error e
        | .ok p => p.load rest := by
  rw [load]
  split
  · next h => simp only [h]
  · next line rest h => simp only [h]

theorem load_nil (p : PropertyList) : p.load [] = .ok p := load_eq p []

theorem load_of_loadLine {l : Bytes} (hl : newline ∉ l) (h : p.loadLine l = .ok q) (rest : Bytes) :
    p.load (l ++ newline :: rest) = q.load rest := by
  rw [load_eq, Split.getline_append hl]
  simp only [h]

/-- A line without a separator sets nothing. -/
theorem loadLine_of_not_mem {l : Bytes} (h : p.sep ∉ l.filter (· ≠ carriageReturn)) :
    p.loadLine l = .ok p := by
  have hfirst := Split.first_eq_none.mpr h
  simp only [loadLine, hfirst, ite_self]

/-- The line of a property is set as it was written. -/
theorem load_entryText (hname : GoodName p.sep name) (hvalue : GoodText value)
    (hsep : GoodSep p.sep [name]) (hq : q.sep = p.sep) (rest : Bytes) :
    q.load (p.entryText name value ++ rest) =
      match q.setProperty name value with
      | .error e => .error e
      | .ok q => q.load rest := by
  have hnewline : newline ∉ name ++ p.sep :: value := by
    simp [hname.newline, hvalue.newline, Ne.symm hsep.newline]
  have htext : p.entryText name value ++ rest = (name ++ p.sep :: value) ++ newline :: rest := by
    simp [entryText]
  have hfilter : (name ++ p.sep :: value).filter (· ≠ carriageReturn) = name ++ p.sep :: value := by
    rw [List.filter_eq_self]
    intro b hb
    have hcr : carriageReturn ∉ name ++ p.sep :: value := by
      simp [hname.carriageReturn, hvalue.carriageReturn, Ne.symm hsep.carriageReturn]
    exact decide_eq_true fun h => hcr (h ▸ hb)
  have hhead : (name ++ p.sep :: value).head? ≠ some hash := by
    cases name with
    | nil => exact fun h => hsep.hash (Option.some.inj h) (.head _)
    | cons b name => exact hname.hash
  rw [htext, load_eq, Split.getline_append hnewline]
  simp only [loadLine, hfilter, if_neg hhead, hq, Split.first_append hname.sep]

theorem setProperty_registered (h : (q.prop.find name).map Property.type = some r.type) :
    q.setProperty name r.serializeValue = .ok { q with prop := q.prop.assign name r } := by
  obtain ⟨r', hfind, htype⟩ := Option.map_eq_some_iff.mp h
  simp only [setProperty, hfind, Property.parseValue_serializeValue htype]

theorem setProperty_unknown (h : q.prop.find name = none) (value : Bytes) :
    q.setProperty name value = .ok { q with unknownProps := q.unknownProps.assign name value } := by
  simp only [setProperty, h]

theorem GoodSep.of_subset {sep : UInt8} {names names' : List Bytes} (h : GoodSep sep names)
    (hsub : names' ⊆ names) : GoodSep sep names' :=
  ⟨h.newline, h.carriageReturn, fun hhash hnil => h.hash hhash (hsub hnil)⟩

/-- Lines of registered properties: each keeps its type, so that the next ones are parsed too. -/
theorem load_registered {l : List (Bytes × Property)} (hl : (l.map (·.1)).Nodup)
    (hname : ∀ e ∈ l, GoodName p.sep e.1) (hvalue : ∀ e ∈ l, GoodText e.2.serializeValue)
    (hsep : GoodSep p.sep (l.map (·.1))) (hq : q.sep = p.sep)
    (htype : ∀ e ∈ l, (q.prop.find e.1).map Property.type = some e.2.type) (rest : Bytes) :
    q.load ((l.flatMap fun e => p.entryText e.1 e.2.serializeValue) ++ rest) =
      load { q with prop := l.foldl (fun m e => m.assign e.1 e.2) q.prop } rest := by
  induction l generalizing q with
  | nil => rfl
  | cons e l ih =>
    obtain ⟨he, hl⟩ := List.nodup_cons.mp hl
    rw [List.flatMap_cons, List.append_assoc,
      load_entryText (hname e (.head _)) (hvalue e (.head _)) (hsep.of_subset (by simp)) hq,
      setProperty_registered (htype e (.head _))]
    refine ih hl (fun e' he' => hname e' (.tail _ he')) (fun e' he' => hvalue e' (.tail _ he'))
      (hsep.of_subset (by simp)) hq fun e' he' => ?_
    have hne : e.1 ≠ e'.1 := fun h => he (List.mem_map.mpr ⟨e', he', h.symm⟩)
    rw [UnorderedMap.find_assign, if_neg hne]
    exact htype e' (.tail _ he')

theorem load_unknown {l : List (Bytes × Bytes)} (hname : ∀ e ∈ l, GoodName p.sep e.1)
    (hvalue : ∀ e ∈ l, GoodText e.2) (hsep : GoodSep p.sep (l.map (·.1))) (hq : q.sep = p.sep)
    (hprop : ∀ e ∈ l, q.prop.find e.1 = none) :
    q.load (l.flatMap fun e => p.entryText e.1 e.2) =
      .ok { q with unknownProps := l.foldl (fun m e => m.assign e.1 e.2) q.unknownProps } := by
  induction l generalizing q with
  | nil => exact load_nil q
  | cons e l ih =>
    rw [List.flatMap_cons,
      load_entryText (hname e (.head _)) (hvalue e (.head _)) (hsep.of_subset (by simp)) hq,
      setProperty_unknown (hprop e (.head _))]
    exact ih (fun e' he' => hname e' (.tail _ he')) (fun e' he' => hvalue e' (.tail _ he'))
      (hsep.of_subset (by simp)) hq fun e' he' => hprop e' (.tail _ he')

/-- The text of a property is within a line if its string is. -/
theorem Property.goodText_serializeValue (h : ∀ value, r = .string value → GoodText value) :
    GoodText r.serializeValue := by
  cases r with
  | string value => exact h value rfl
  | int value =>
    constructor
    · intro hmem
      exact absurd (Decimal.mem_intText hmem) (by decide)
    · intro hmem
      exact absurd (Decimal.mem_intText hmem) (by decide)
  | bool value => cases value <;> exact ⟨by decide, by decide⟩

theorem SameRegistrations.prop_find_none (hq : SameRegistrations p q)
    (h : p.prop.find name = none) : q.prop.find name = none := by
  rw [← Option.map_eq_none_iff, hq.types, h]
  rfl

/-- What is saved is loaded into a list with the same registrations. -/
theorem load_save_properties (hp : Saveable p) (hsep : GoodSep p.sep p.names)
    (hq : SameRegistrations p q) :
    ∃ q', q.load p.save = .ok q' ∧ (∀ name, q'.prop.find name = p.prop.find name) ∧
      ∀ name, q'.unknownProps.find name = p.unknownProps.find name := by
  -- a name that is not registered in the one list is not registered in the other
  have hprop : ∀ name, (p.prop.find name).or (q.prop.find name) = p.prop.find name := by
    intro name
    cases h : p.prop.find name with
    | none => exact hq.prop_find_none h
    | some r => rfl
  have hunknown : ∀ name, (p.unknownProps.find name).or (q.unknownProps.find name) =
      p.unknownProps.find name := by
    intro name
    cases h : p.unknownProps.find name with
    | none => exact hq.unknown name h
    | some value => rfl
  have hregistered : q.load p.save = _ :=
    load_registered p.prop.nodup (fun e he => hp.names e.1 (by simpa [names] using .inl ⟨_, he⟩))
      (fun e he => Property.goodText_serializeValue (hp.strings e he))
      (hsep.of_subset (List.subset_append_left _ _)) hq.sep
      (fun e he => by rw [hq.types, UnorderedMap.find_eq_some_iff.mpr he]; rfl) _
  refine ⟨_, hregistered.trans (load_unknown ?_ ?_ ?_ hq.sep ?_), fun name => ?_, fun name => ?_⟩
  · exact fun e he => hp.names e.1 (by simpa [names] using .inr ⟨_, he⟩)
  · exact hp.unknown
  · exact hsep.of_subset (List.subset_append_right _ _)
  · intro e he
    rw [UnorderedMap.find_foldl_entries, hprop, UnorderedMap.find_eq_none_iff]
    exact hp.disjoint.symm (List.mem_map.mpr ⟨e, he, rfl⟩)
  · exact (UnorderedMap.find_foldl_entries _ _ name).trans (hprop name)
  · exact (UnorderedMap.find_foldl_entries _ _ name).trans (hunknown name)

end Load

/-- A server's list with properties of each type, one with the separator, and an unknown one. -/
theorem load_save_properties_server :
    let names := [ascii "motd", ascii "players", ascii "pvp"]
    let p : PropertyList :=
      { prop := ⟨names.zip [.string (ascii "a=b"), .int (-5), .bool true], by decide⟩
        unknownProps := ⟨[(ascii "view", ascii "10")], by decide⟩ }
    let q : PropertyList :=
      { prop := ⟨names.zip [.string [], .int 20, .bool false], by decide⟩ }
    ∃ q', q.load p.save = .ok q' ∧ (∀ name, q'.prop.find name = p.prop.find name) ∧
      ∀ name, q'.unknownProps.find name = p.unknownProps.find name := by
  intro names p q
  refine load_save_properties (p := p) (q := q) ⟨?_, ?_, ?_, ?_⟩ ⟨by decide, by decide, by decide⟩
    ⟨rfl, ?_, fun _ _ => rfl⟩
  · have h : ∀ name ∈ p.names, equals ∉ name ∧ newline ∉ name ∧ carriageReturn ∉ name ∧
        name.head? ≠ some hash := by decide
    exact fun name hname => ⟨(h name hname).1, (h name hname).2.1, (h name hname).2.2.1,
      (h name hname).2.2.2⟩
  · exact List.disjoint_iff_ne.mpr (by decide)
  · rintro e he value hvalue
    have h : value = ascii "a=b" := by
      simp [p, names] at he
      grind
    exact h ▸ ⟨by decide, by decide⟩
  · rintro e he
    rw [List.mem_singleton.mp he]
    exact ⟨by decide, by decide⟩
  · intro name
    by_cases hmotd : ascii "motd" = name
    · exact hmotd ▸ rfl
    · by_cases hplayers : ascii "players" = name
      · exact hplayers ▸ rfl
      · by_cases hpvp : ascii "pvp" = name
        · exact hpvp ▸ rfl
        · simp [p, q, names, UnorderedMap.find, hmotd, hplayers, hpvp]

/-- The round trip of the lists with one property, for a separator and a name. -/
def RoundTrips (sep : UInt8) (name : Bytes) : Prop :=
  ∀ p q : PropertyList, p.sep = sep → p.names = [name] → Saveable p → SameRegistrations p q →
    ∃ q', q.load p.save = .ok q' ∧ (∀ name, q'.prop.find name = p.prop.find name) ∧
      ∀ name, q'.unknownProps.find name = p.unknownProps.find name

/-- If no line of the text sets the property, it is not read back. -/
theorem not_roundTrips_of_load {sep : UInt8} {name : Bytes}
    (hname : sep ∉ name ∧ newline ∉ name ∧ carriageReturn ∉ name ∧ name.head? ≠ some hash)
    (hload : ∀ q : PropertyList, q.sep = sep → q.load
      (save { prop := ⟨[(name, .string (ascii "x"))], by simp⟩, sep := sep }) = .ok q) :
    ¬RoundTrips sep name := by
  intro h
  let p : PropertyList := { prop := ⟨[(name, .string (ascii "x"))], by simp⟩, sep := sep }
  let q : PropertyList := { prop := ⟨[(name, .string [])], by simp⟩, sep := sep }
  have hp : Saveable p := by
    refine ⟨?_, List.disjoint_nil_right _, ?_, fun _ h => nomatch h⟩
    · rintro name' hname'
      rw [List.mem_singleton.mp hname']
      exact ⟨hname.1, hname.2.1, hname.2.2.1, hname.2.2.2⟩
    · rintro e he value hvalue
      rw [List.mem_singleton.mp he] at hvalue
      cases hvalue
      exact ⟨by decide, by decide⟩
  have hq : SameRegistrations p q := by
    refine ⟨rfl, fun name' => ?_, fun _ _ => rfl⟩
    by_cases hname : name = name' <;> simp [p, q, UnorderedMap.find, hname, Property.type]
  obtain ⟨q', hload', hprop, -⟩ := h p q rfl rfl hp hq
  cases hload'.symm.trans (hload q rfl)
  have hfind := hprop name
  simp [p, q, UnorderedMap.find, ascii] at hfind

/-- With a newline or a carriage return as the separator, and with a hash sign behind an empty name,
a property is not read back. -/
theorem not_load_save_separator :
    ¬RoundTrips newline (ascii "a") ∧ ¬RoundTrips carriageReturn (ascii "a") ∧
      ¬RoundTrips hash [] := by
  refine ⟨not_roundTrips_of_load (by decide) fun q hq => ?_,
    not_roundTrips_of_load (by decide) fun q hq => ?_,
    not_roundTrips_of_load (by decide) fun q hq => ?_⟩
  · have ha : q.loadLine (ascii "a") = .ok q := loadLine_of_not_mem (by rw [hq]; decide)
    have hx : q.loadLine (ascii "x") = .ok q := loadLine_of_not_mem (by rw [hq]; decide)
    exact (load_of_loadLine (by decide) ha _).trans
      ((load_of_loadLine (by decide) hx []).trans (load_nil q))
  · have hax : q.loadLine (ascii "a\rx") = .ok q := loadLine_of_not_mem (by rw [hq]; decide)
    exact (load_of_loadLine (by decide) hax []).trans (load_nil q)
  · have hx : q.loadLine (ascii "#x") = .ok q := rfl
    exact (load_of_loadLine (by decide) hx []).trans (load_nil q)

end PropertyList

end McpeLauncher.Properties
