import Mathlib.Data.List.Infix
import McpeLauncher.Lib.Terminated

/-!
# Rewriting of paths

`iorewrite0` looks for the first entry of `rewrite_filesystem_access` that applies to a path and
puts its target in place of the source. The shims of `open` pass the result to the host. A text is
the list of its bytes.
-/

namespace McpeLauncher.LibcShim

def slash : UInt8 := 0x2f
def dot : UInt8 := 0x2e

/-- What a function that expects a C string reads from `data()`. -/
def cString (s : List UInt8) : List UInt8 := s.takeWhile (· ≠ 0)

/-- A path that an application passes. -/
structure PathName where
  bytes : List UInt8
  noNul : 0 ∉ bytes

/-- An entry of `rewrite_filesystem_access`. -/
structure Rewrite where
  first : List UInt8
  second : List UInt8

abbrev RewriteTable := List Rewrite

namespace Rewrite

/-- The special rule for relative paths. -/
def IsRelative (kv : Rewrite) (path : List UInt8) : Prop :=
  path.head? ≠ some slash ∧ kv.first = [dot]
  deriving Decidable

/-- The source is a beginning of the path, and `rfind` does not find it at the beginning of the
target. -/
def IsBeginning (kv : Rewrite) (path : List UInt8) : Prop :=
  kv.first.length ≤ path.length ∧ path.take kv.first.length = kv.first ∧
    ¬cString kv.first <+: kv.second

instance (kv : Rewrite) (path : List UInt8) : Decidable (kv.IsBeginning path) :=
  inferInstanceAs (Decidable (_ ∧ _ ∧ _))

def Applies (kv : Rewrite) (path : List UInt8) : Prop := kv.IsRelative path ∨ kv.IsBeginning path
  deriving Decidable

end Rewrite

/-- The loop of `iorewrite0`. -/
def rewriteLoop (path : List UInt8) : RewriteTable → List UInt8
  | [] => path
  | kv :: rest =>
    if kv.IsRelative path then kv.second ++ path
    else if kv.IsBeginning path then kv.second ++ path.drop kv.first.length
    else rewriteLoop path rest

def iorewrite0 (table : RewriteTable) : Option PathName → List UInt8
  | none => []
  | some path => if 0 < path.bytes.length then rewriteLoop path.bytes table else []

/-! ## The shims -/

/-- The flags of bionic with those of the host. -/
def fileStatusFlags : List (UInt32 × UInt32) :=
  [(0o0, 0o0), (0o1, 0o1), (0o2, 0o2), (0o100, 0o100), (0o200, 0o200), (0o400, 0o400),
    (0o1000, 0o1000), (0o2000, 0o2000), (0o4000, 0o4000), (0o2000000, 0o2000000)]

def toHostFileStatusFlags (flags : UInt32) : UInt32 :=
  fileStatusFlags.foldl (fun ret f => if flags &&& f.1 ≠ 0 then ret ||| f.2 else ret) 0

def O_CREAT : UInt32 := 0o100

/-- What the host gets: the directory of `openat`, the path as it reads it, flags and mode. -/
structure HostCall where
  dirfd : Option Int
  path : Option (List UInt8)
  flags : UInt32
  mode : UInt32

variable (table : RewriteTable)

/-- `mode` is the argument behind the flags, if it is needed. -/
def shimOpen (pathname : Option PathName) (flags mode : UInt32) : HostCall where
  dirfd := none
  path := some (cString (iorewrite0 table pathname))
  flags := toHostFileStatusFlags flags
  mode := if toHostFileStatusFlags flags &&& O_CREAT ≠ 0 then mode else 0

def shimOpenat (dirfd : Int) (pathname : Option PathName) (flags mode : UInt32) : HostCall where
  dirfd := some dirfd
  path := some (cString (iorewrite0 table pathname))
  flags := toHostFileStatusFlags flags
  mode := if toHostFileStatusFlags flags &&& O_CREAT ≠ 0 then mode else 0

/-- The table is not used. -/
def shimOpen2 (pathname : Option PathName) (flags : UInt32) : HostCall where
  dirfd := none
  path := pathname.map PathName.bytes
  flags := toHostFileStatusFlags flags
  mode := 0

def shimOpen3 (pathname : Option PathName) (flags mode : UInt32) : HostCall where
  dirfd := none
  path := some (cString (iorewrite0 table pathname))
  flags := toHostFileStatusFlags flags
  mode := mode

/-- The paths that the four shims pass for one path. -/
def passed (path : PathName) (dirfd : Int) (flags mode : UInt32) : List (Option (List UInt8)) :=
  [(shimOpen table path flags mode).path, (shimOpenat table dirfd path flags mode).path,
    (shimOpen2 path flags).path, (shimOpen3 table path flags mode).path]

/-! ## What the table is for -/

def IsAbsolute (path : List UInt8) : Prop := path.head? = some slash
  deriving Decidable

def components (path : List UInt8) : List (List UInt8) := (path.splitOn slash).filter (· ≠ [])

/-- The path is the directory or something below it. -/
def Below (directory path : List UInt8) : Prop :=
  IsAbsolute directory ∧ components directory <+: components path

instance (directory path : List UInt8) : Decidable (Below directory path) :=
  inferInstanceAs (Decidable (_ ∧ _))

/-- The first entry that applies does nothing: it puts an empty target before a relative path, or
one that a C string ends in after the path itself. -/
def Harmless (path : PathName) : Prop :=
  path.bytes = [] ∨ ∀ kv, table.find? (fun kv => kv.Applies path.bytes) = some kv →
    kv.IsRelative path.bytes ∧ (kv.second = [] ∨ path.bytes ++ [0] <+: kv.second)

/-- An absolute path is below a source, or no entry applies to it. -/
def Exact (path : PathName) : Prop :=
  IsAbsolute path.bytes → (∃ kv ∈ table, Below kv.first path.bytes) ∨
    ∀ kv ∈ table, ¬kv.Applies path.bytes

/-! ## C strings -/

variable {s t : List UInt8}

theorem cString_of_noNul (hs : 0 ∉ s) : cString s = s := Terminated.upTo_of_not_mem hs

theorem cString_append_of_noNul (hs : 0 ∉ s) (t : List UInt8) :
    cString (s ++ t) = s ++ cString t :=
  Terminated.upTo_append_of_not_mem hs t

/-- The string ends at the first zero byte. -/
theorem exists_cString_append (hs : 0 ∈ s) : ∃ r, s = cString s ++ 0 :: r :=
  Terminated.exists_upTo_append hs

theorem noNul_cString (s : List UInt8) : 0 ∉ cString s := Terminated.not_mem_upTo 0 s

theorem cString_append_nul (hs : 0 ∉ s) (t : List UInt8) : cString (s ++ 0 :: t) = s :=
  (Terminated.upTo_append_terminator s t).trans (cString_of_noNul hs)

theorem cString_append_of_mem (hs : 0 ∈ s) (t : List UInt8) : cString (s ++ t) = cString s :=
  Terminated.upTo_append_of_mem hs t

/-- When a C string is not changed by what is put before it. -/
theorem cString_append_eq_iff (ht : 0 ∉ t) : cString (s ++ t) = t ↔ s = [] ∨ t ++ [0] <+: s := by
  by_cases hs : 0 ∈ s
  · obtain ⟨r, hr⟩ := exists_cString_append hs
    rw [cString_append_of_mem hs]
    constructor
    · intro h
      rw [h] at hr
      exact .inr ⟨r, by rw [hr, List.append_assoc]; rfl⟩
    · rintro (rfl | ⟨r, rfl⟩)
      · exact absurd hs List.not_mem_nil
      · rw [List.append_assoc]
        exact cString_append_nul ht r
  · rw [cString_append_of_noNul hs, cString_of_noNul ht]
    constructor
    · exact fun h => .inl (List.append_left_eq_self.mp h)
    · rintro (rfl | hbegin)
      · rfl
      · exact absurd (hbegin.subset (List.mem_append_right t (.head []))) hs

/-! ## Which entry is taken -/

variable {table} {path : PathName}

/-- What an entry that applies makes of a path. -/
def Rewrite.apply (kv : Rewrite) (path : List UInt8) : List UInt8 :=
  if kv.IsRelative path then kv.second ++ path else kv.second ++ path.drop kv.first.length

theorem rewriteLoop_eq (path : List UInt8) (table : RewriteTable) :
    rewriteLoop path table =
      ((table.find? fun kv => kv.Applies path).map (·.apply path)).getD path := by
  induction table with
  | nil => rfl
  | cons kv table ih =>
    rw [rewriteLoop]
    split
    next hrel =>
      have happ : decide (kv.Applies path) = true := decide_eq_true (.inl hrel)
      simp only [List.find?_cons, happ, Option.map_some, Option.getD_some, Rewrite.apply,
        if_pos hrel]
    next hrel =>
      split
      next hbegin =>
        have happ : decide (kv.Applies path) = true := decide_eq_true (.inr hbegin)
        simp only [List.find?_cons, happ, Option.map_some, Option.getD_some, Rewrite.apply,
          if_neg hrel]
      next hbegin =>
        have happ : decide (kv.Applies path) = false :=
          decide_eq_false fun h => h.elim hrel hbegin
        simp only [List.find?_cons, happ, ih]

/-- A source that is replaced by something else changes the path. -/
theorem Rewrite.IsBeginning.changes {kv : Rewrite} (h : kv.IsBeginning path.bytes) :
    cString (kv.second ++ path.bytes.drop kv.first.length) ≠ path.bytes := by
  obtain ⟨-, htake, htarget⟩ := h
  obtain ⟨rest, hrest⟩ : ∃ rest, kv.first ++ rest = path.bytes := by
    rw [← htake]
    exact List.take_prefix _ _
  have hnoNul : 0 ∉ kv.first ++ rest := hrest ▸ path.noNul
  rw [cString_of_noNul fun h => hnoNul (List.mem_append_left _ h)] at htarget
  rw [← hrest, List.drop_left]
  intro heq
  apply htarget
  by_cases hsecond : 0 ∈ kv.second
  · rw [cString_append_of_mem hsecond] at heq
    obtain ⟨r, hr⟩ := exists_cString_append hsecond
    rw [hr, heq, List.append_assoc]
    exact List.prefix_append _ _
  · rw [cString_append_of_noNul hsecond,
      cString_of_noNul fun h => hnoNul (List.mem_append_right _ h)] at heq
    rw [List.append_cancel_right heq]

theorem applies_of_find {kv : Rewrite} {path : List UInt8}
    (h : table.find? (fun kv => kv.Applies path) = some kv) : kv ∈ table ∧ kv.Applies path := by
  have happ := List.find?_some h
  exact ⟨List.mem_of_find?_eq_some h, of_decide_eq_true happ⟩

/-- An entry that applies leaves the path as it is only if it is a harmless one. -/
theorem Rewrite.Applies.unchanged_iff {kv : Rewrite} (h : kv.Applies path.bytes) :
    cString (kv.apply path.bytes) = path.bytes ↔
      kv.IsRelative path.bytes ∧ (kv.second = [] ∨ path.bytes ++ [0] <+: kv.second) := by
  rw [Rewrite.apply]
  split
  next hrel =>
    rw [cString_append_eq_iff path.noNul]
    exact (and_iff_right hrel).symm
  next hrel => exact iff_of_false (h.resolve_left hrel).changes fun h => hrel h.1

theorem iorewrite0_eq_iff (table : RewriteTable) (path : PathName) :
    cString (iorewrite0 table path) = path.bytes ↔ Harmless table path := by
  rw [iorewrite0]
  split
  next hlen =>
    have hne : path.bytes ≠ [] := List.length_pos_iff.mp hlen
    rw [rewriteLoop_eq, Harmless, or_iff_right hne]
    cases hfind : table.find? fun kv => kv.Applies path.bytes with
    | none =>
      refine iff_of_true (cString_of_noNul path.noNul) ?_
      exact fun kv h => nomatch h
    | some kv =>
      refine (applies_of_find hfind).2.unchanged_iff.trans ⟨?_, fun h => h kv rfl⟩
      rintro h kv' hkv
      exact Option.some.inj hkv ▸ h
  next hlen =>
    have hnil : path.bytes = [] := List.eq_nil_of_length_eq_zero (Nat.eq_zero_of_not_pos hlen)
    exact iff_of_true hnil.symm (.inl hnil)

/-- All shims but one pass the path that was rewritten. -/
theorem mem_passed {p : Option (List UInt8)} {dirfd : Int} {flags mode : UInt32} :
    p ∈ passed table path dirfd flags mode ↔
      p = some (cString (iorewrite0 table path)) ∨ p = some path.bytes := by
  simp only [passed, shimOpen, shimOpenat, shimOpen2, shimOpen3, Option.map_some, List.mem_cons,
    List.not_mem_nil, or_false]
  tauto

theorem Harmless.unchanged (h : Harmless table path) {p : Option (List UInt8)} {dirfd : Int}
    {flags mode : UInt32} (hp : p ∈ passed table path dirfd flags mode) : p = some path.bytes := by
  rw [mem_passed, (iorewrite0_eq_iff table path).mpr h, or_self] at hp
  exact hp

end McpeLauncher.LibcShim
